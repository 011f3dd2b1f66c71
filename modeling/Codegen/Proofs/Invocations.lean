import Codegen.Proofs.Chaining
import Codegen.Proofs.Upkeep

/-!
# When a converter is asked

A builder asks its converter about an instruction when the instruction was not seen before. From
then on the instruction is seen, so that there is one instruction less to ask about whenever a
conversion begins inside another one. As many conversions as there are instructions that were not
seen can be in progress on top of each other and no more, and a bound on their number that is larger
than this is never reached. For the same reason no instruction is asked about twice, also if the
builder stops in the middle.

## Main definitions

* `Builder.unseen`: the instructions whose conversion has not begun.
* `Builder.convertCalls`, `Builder.buildCalls`: the instructions about which a converter is asked,
  in the order in which that happens.
* `Builder.Begins`: which conversions begin between two builders.

## Main results

* `Builder.convert_depth`: the bound on the conversions in progress does not matter if it is large
  enough.
* `Builder.begins_convert`, `Builder.begins_buildBlocks`: the conversions that begin are those about
  which the converter is asked, each once.
* `Builder.buildCalls_subperm`: no instruction is asked about twice, and all of them are in blocks.
-/

namespace Codegen

open Codegen.EStateM (after Maintains)

namespace EStateM

variable {ε σ α β γ : Type}

/-- Two steps in sequence do the same if the first ones do and the second ones do in the state that
they find. -/
theorem bind_congr_of_ok {x x' : EStateM ε σ α} {f f' : α → EStateM ε σ β} {s : σ}
    (hx : x s = x' s) (hf : ∀ a t, x s = .ok a t → f a t = f' a t) :
    (x >>= f) s = (x' >>= f') s := by
  simp only [bind, EStateM.bind, ← hx]
  cases h : x s with
  | ok a t => exact hf a t h
  | error e t => rfl

/-- What is listed after a step, unless it stops. -/
def andThen (x : EStateM ε σ α) (list : α → σ → List γ) (s : σ) : List γ :=
  match x s with
  | .ok a t => list a t
  | .error _ _ => []

theorem andThen_eq_of_ok {x : EStateM ε σ α} {list : α → σ → List γ} {s t : σ} {a : α}
    (h : x s = .ok a t) : andThen x list s = list a t := by
  rw [andThen, h]

theorem mem_andThen {x : EStateM ε σ α} {list : α → σ → List γ} {s : σ} {c : γ}
    (h : c ∈ andThen x list s) : ∃ a t, x s = .ok a t ∧ c ∈ list a t := by
  unfold andThen at h
  split at h
  · next a t hx => exact ⟨a, t, hx, h⟩
  · cases h

end EStateM

namespace Builder

variable {ω α β : Type} {conv : Converter ω} {src : Source} {s s' t u : Builder ω} {i j : InstrId}
  {is js : List InstrId}

/-! ### Instructions that were not seen -/

/-- The instructions whose conversion has not begun. -/
def unseen (s : Builder ω) : Finset InstrId :=
  (Finset.range s.memo.size).filter (s.memo[·]? = some .unseen)

theorem mem_unseen : i ∈ s.unseen ↔ s.memo[i]? = some .unseen := by
  simp only [unseen, Finset.mem_filter, Finset.mem_range, and_iff_right_iff_imp]
  exact fun h => (Array.getElem?_eq_some_iff.1 h).1

theorem card_unseen_le (s : Builder ω) : s.unseen.card ≤ s.memo.size := by
  simpa [unseen] using Finset.card_filter_le (Finset.range s.memo.size) (s.memo[·]? = some .unseen)

/-- An instruction about which something is remembered is seen. -/
theorem unseen_remembered {m : Memo} (hm : m ≠ .unseen) :
    (s.remembered i m).unseen = s.unseen.erase i := by
  ext j
  rw [Finset.mem_erase, mem_unseen, mem_unseen]
  by_cases hij : i = j
  · subst hij
    rw [remembered, Array.getElem?_setIfInBounds, if_pos rfl]
    split <;> simp [hm]
  · rw [memo_remembered_of_ne hij]
    simp [Ne.symm hij]

theorem unseen_begun : (s.remembered i .inProgress).unseen = s.unseen.erase i :=
  unseen_remembered (by simp)

theorem unseen_ended {result : Conversion.Result} :
    (s.remembered i (.converted result)).unseen = s.unseen.erase i :=
  unseen_remembered (by simp)

/-- When a conversion begins, there is one less that can begin. -/
theorem card_unseen_begun (hm : s.memo[i]? = some .unseen) :
    (s.remembered i .inProgress).unseen.card < s.unseen.card := by
  rw [unseen_begun]
  exact Finset.card_erase_lt_of_mem (mem_unseen.2 hm)

/-- What was seen stays seen. -/
theorem unseen_convert {fuel : Nat} {r : NodeRef} (h : convert conv src fuel i s = .ok r s') :
    s'.unseen ⊆ s.unseen := by
  induction fuel generalizing i s r s' with
  | zero => exact absurd h EStateM.throw_ne_ok
  | succ fuel ih =>
    rcases convert_eq_ok h with ⟨result, -, -, rfl⟩ | ⟨result, t, -, hrun, -, rfl⟩
    · exact Finset.Subset.refl _
    · have hrest : t.unseen ⊆ (s.remembered i .inProgress).unseen :=
        run_induction (R := fun s s' => s'.unseen ⊆ s.unseen) (fun _ => Finset.Subset.refl _)
          (fun h h' => h'.trans h) (fun _ _ _ => Finset.Subset.refl _) ih hrun
      rw [unseen_begun] at hrest
      rw [unseen_ended]
      exact (Finset.erase_subset i _).trans (hrest.trans (Finset.erase_subset i _))

/-! ### The bound on the conversions in progress -/

/-- A conversion does the same with two ways to convert other instructions if these do the same in
all states that it comes through. -/
theorem run_congr {visit visit' : InstrId → Build ω NodeRef} {P : Builder ω → Prop}
    (hadded : ∀ s node, P s → P (s.added node))
    (hvisit : ∀ j s, P s → visit j s = visit' j s ∧ ∀ r t, visit j s = .ok r t → P t)
    (c : Conversion ω α) (hs : P s) :
    runConversion src visit c s = runConversion src visit' c s := by
  induction c generalizing s with
  | done a => rfl
  | stop e => rfl
  | inst op args next ih | imm x bits next ih | vreg r next ih | slot m next ih =>
    refine EStateM.bind_congr_of_ok rfl fun n t hmake => ?_
    obtain ⟨-, rfl⟩ := make_eq_ok hmake
    exact ih n (hadded s _ hs)
  | block b next ih =>
    refine EStateM.bind_congr_of_ok rfl fun n t hmake => ?_
    obtain ⟨_, -, -, rfl⟩ := makeBlock_eq_ok hmake
    exact ih n (hadded s _ hs)
  | leaf v next ih =>
    refine EStateM.bind_congr_of_ok rfl fun n t hmake => ?_
    obtain ⟨_, -, -, rfl⟩ := makeLeaf_eq_ok hmake
    exact ih n (hadded s _ hs)
  | operand v next ih =>
    rw [runConversion, runConversion]
    refine EStateM.bind_congr_of_ok rfl fun _ _ hget => ?_
    obtain ⟨rfl, rfl⟩ := EStateM.get_eq_ok.1 hget
    refine EStateM.bind_congr_of_ok rfl fun p _ hp => ?_
    obtain ⟨-, rfl⟩ := liftStop_eq_ok.1 hp
    cases p with
    | some j =>
      obtain ⟨hsame, hkeep⟩ := hvisit j s hs
      exact EStateM.bind_congr_of_ok hsame fun r t hj => ih r (hkeep r t hj)
    | none =>
      refine EStateM.bind_congr_of_ok rfl fun n t hmake => ?_
      obtain ⟨_, -, -, rfl⟩ := makeLeaf_eq_ok hmake
      exact ih (some n) (hadded s _ hs)

/-- Converting an instruction that was not seen. -/
theorem convert_of_unseen {fuel : Nat} (hm : s.memo[i]? = some .unseen) :
    convert conv src (fuel + 1) i s =
      (do let r ← runConversion src (convert conv src fuel) (conv src s.context i)
          remember i (.converted r)
          return r.value) (s.remembered i .inProgress) := by
  have hmemo : memoOf i s = .ok .unseen s := memoOf_eq_ok.2 ⟨hm, rfl⟩
  simp only [convert, bind, EStateM.bind, hmemo]
  rfl

/-- Two bounds that are larger than the number of instructions that were not seen do the same. -/
theorem convert_depth {depth depth' : Nat} (h : s.unseen.card < depth)
    (h' : s.unseen.card < depth') :
    convert conv src depth i s = convert conv src depth' i s := by
  induction depth generalizing depth' i s with
  | zero => exact absurd h (Nat.not_lt_zero _)
  | succ depth ih =>
    obtain _ | depth' := depth'
    · exact absurd h' (Nat.not_lt_zero _)
    by_cases hm : s.memo[i]? = some .unseen
    · have hless := card_unseen_begun hm
      rw [convert_of_unseen hm, convert_of_unseen hm]
      refine EStateM.bind_congr_of_ok ?_ fun _ _ _ => rfl
      -- Whatever the conversion visits, fewer instructions are left than there are now.
      refine run_congr (P := fun t => t.unseen.card < depth ∧ t.unseen.card < depth')
        (fun _ _ ht => ht) (fun j t ht => ⟨ih ht.1 ht.2, fun r t' hj => ?_⟩) _
        ⟨by omega, by omega⟩
      have hle := Finset.card_le_card (unseen_convert hj)
      exact ⟨Nat.lt_of_le_of_lt hle ht.1, Nat.lt_of_le_of_lt hle ht.2⟩
    · rw [convert, convert]
      refine EStateM.bind_congr_of_ok rfl fun m _ hmemo => ?_
      obtain ⟨hm', rfl⟩ := memoOf_eq_ok.1 hmemo
      cases m with
      | unseen => exact absurd hm' hm
      | inProgress => rfl
      | converted r => rfl

/-! ### The instructions about which a converter is asked -/

/-- The instructions about which the converter is asked while a conversion runs. When another
instruction is converted, they are given by `calls`. -/
def runCalls (src : Source) (visit : InstrId → Build ω NodeRef)
    (calls : InstrId → Builder ω → List InstrId) : Conversion ω α → Builder ω → List InstrId
  | .done _, _ => []
  | .stop _, _ => []
  | .inst op args next, s =>
    EStateM.andThen (make (.inst op) args) (fun n t => runCalls src visit calls (next n) t) s
  | .imm v bits next, s =>
    EStateM.andThen (make (.imm v bits) []) (fun n t => runCalls src visit calls (next n) t) s
  | .vreg r next, s =>
    EStateM.andThen (make (.vreg r) []) (fun n t => runCalls src visit calls (next n) t) s
  | .slot m next, s =>
    EStateM.andThen (make (.slot m) []) (fun n t => runCalls src visit calls (next n) t) s
  | .block b next, s =>
    EStateM.andThen (makeBlock b) (fun n t => runCalls src visit calls (next n) t) s
  | .operand v next, s =>
    match producer? src s.context s.current v with
    | .ok (some i) =>
      calls i s ++ EStateM.andThen (visit i) (fun r t => runCalls src visit calls (next r) t) s
    | .ok none =>
      EStateM.andThen (makeLeaf src v) (fun n t => runCalls src visit calls (next (some n)) t) s
    | .error _ => []
  | .leaf v next, s =>
    EStateM.andThen (makeLeaf src v) (fun n t => runCalls src visit calls (next n) t) s

/-- The instructions about which the converter is asked to convert an instruction. -/
def convertCalls (conv : Converter ω) (src : Source) : Nat → InstrId → Builder ω → List InstrId
  | 0, _, _ => []
  | fuel + 1, i, s =>
    match s.memo[i]? with
    | some .unseen =>
      i :: runCalls src (convert conv src fuel) (convertCalls conv src fuel)
        (conv src s.context i) (s.remembered i .inProgress)
    | _ => []

/-- The instructions about which the converter is asked while the builder goes through a list of
instructions. -/
def instrsCalls (conv : Converter ω) (src : Source) : Tail → List InstrId → Builder ω → List InstrId
  | _, [], _ => []
  | tail, i :: is, s =>
    convertCalls conv src (src.func.instrs.size + 1) i s ++
      EStateM.andThen (buildInstr conv src tail i) (fun tail t => instrsCalls conv src tail is t) s

/-- The instructions about which the converter is asked while blocks are built. -/
def blocksCalls (conv : Converter ω) (src : Source) :
    List (BlockId × Block) → Builder ω → List InstrId
  | [], _ => []
  | (b, blk) :: rest, s =>
    instrsCalls conv src {} blk.instrs.reverse (s.opened b) ++
      EStateM.andThen (atPlace (.block (blk.label b)) (buildBlock conv src b blk))
        (fun _ t => blocksCalls conv src rest t) s

/-- The instructions about which the converter is asked while a graph is built. -/
def buildCalls (conv : Converter ω) (src : Source) (s : Builder ω) : List InstrId :=
  EStateM.andThen (start src) (fun _ t => blocksCalls conv src src.func.layout t) s

/-! ### Conversions that begin -/

/-- Between two builders the conversions of the instructions `is` begin, each once, and no others.
-/
structure Begins (s : Builder ω) (is : List InstrId) (s' : Builder ω) : Prop where
  nodup : is.Nodup
  unseen : ∀ i ∈ is, i ∈ s.unseen
  rest : ∀ {i : InstrId}, i ∈ s'.unseen ↔ i ∈ s.unseen ∧ i ∉ is

theorem begins_nil (h : s'.memo = s.memo) : Begins s [] s' :=
  ⟨.nil, by simp, by simp [Builder.unseen, h]⟩

theorem Begins.append (h : Begins s is t) (h' : Begins t js u) : Begins s (is ++ js) u := by
  refine ⟨List.nodup_append.2 ⟨h.nodup, h'.nodup, fun i hi j hj hij => ?_⟩, fun i hi => ?_, ?_⟩
  · -- What began first was seen when the others began.
    exact (h.rest.1 (h'.unseen j hj)).2 (hij ▸ hi)
  · rcases List.mem_append.1 hi with hi | hi
    · exact h.unseen i hi
    · exact (h.rest.1 (h'.unseen i hi)).1
  · intro i
    rw [h'.rest, h.rest, List.mem_append, not_or, and_assoc]

theorem Begins.quiet (h : Begins s is t) (h' : Begins t [] u) : Begins s is u := by
  have happend := h.append h'
  rwa [List.append_nil] at happend

/-- What begins in two steps, whether the first one stops or not. -/
theorem begins_bind {x : Build ω α} {f : α → Build ω β} {list : α → Builder ω → List InstrId}
    (hx : Begins s is (after x s))
    (hf : ∀ a t, x s = .ok a t → Begins t (list a t) (after (f a) t)) :
    Begins s (is ++ EStateM.andThen x list s) (after (x >>= f) s) := by
  simp only [EStateM.andThen, after, bind, EStateM.bind] at hx hf ⊢
  cases h : x s with
  | ok a t =>
    rw [h] at hx
    exact hx.append (hf a t h)
  | error e t =>
    rw [h] at hx
    simpa using hx

/-- A step that remembers nothing begins no conversion. -/
theorem begins_quiet_bind {x : Build ω α} {f : α → Build ω β}
    {list : α → Builder ω → List InstrId}
    (hx : Maintains (fun t => t.memo = s.memo) x)
    (hf : ∀ a t, x s = .ok a t → Begins t (list a t) (after (f a) t)) :
    Begins s (EStateM.andThen x list s) (after (x >>= f) s) :=
  begins_bind (begins_nil (hx s rfl)) hf

theorem graphless_memo (memo : Array Memo) : Graphless fun s : Builder ω => s.memo = memo :=
  fun _ _ h => h

/-- Running a conversion begins the conversions about which the converter is asked. -/
theorem begins_run (src : Source) {visit : InstrId → Build ω NodeRef}
    {calls : InstrId → Builder ω → List InstrId}
    (hvisit : ∀ j s, Begins s (calls j s) (after (visit j) s)) (c : Conversion ω α)
    (s : Builder ω) :
    Begins s (runCalls src visit calls c s) (after (runConversion src visit c) s) := by
  induction c generalizing s with
  | done a => exact begins_nil rfl
  | stop e => exact begins_nil rfl
  | inst op args next ih | imm x bits next ih | vreg r next ih | slot m next ih =>
    exact begins_quiet_bind (maintains_make (graphless_memo _) _ _) fun n t _ => ih n t
  | block b next ih =>
    exact begins_quiet_bind (maintains_makeBlock (graphless_memo _) b) fun n t _ => ih n t
  | leaf v next ih =>
    exact begins_quiet_bind (maintains_makeLeaf (graphless_memo _) v) fun n t _ => ih n t
  | operand v next ih =>
    rw [runCalls, runConversion]
    change Begins s _ (after ((liftM (producer? src s.context s.current v) : Build ω _) >>= _) s)
    cases producer? src s.context s.current v with
    | error e => exact begins_nil rfl
    | ok p =>
      cases p with
      | some j => exact begins_bind (hvisit j s) fun r t _ => ih r t
      | none =>
        exact begins_quiet_bind (maintains_makeLeaf (graphless_memo _) v) fun n t _ => ih (some n) t

theorem begins_begun (hm : s.memo[i]? = some .unseen) :
    Begins s [i] (s.remembered i .inProgress) := by
  refine ⟨List.nodup_singleton i, by simpa using mem_unseen.2 hm, fun {j} => ?_⟩
  rw [unseen_begun, Finset.mem_erase, List.mem_singleton, and_comm]

/-- When a conversion ends, the instruction was seen already. -/
theorem begins_ended {result : Conversion.Result} (hm : i ∉ s.unseen) :
    Begins s [] (s.remembered i (.converted result)) := by
  refine ⟨.nil, by simp, fun {j} => ?_⟩
  rw [unseen_ended, Finset.erase_eq_of_notMem hm]
  simp

/-- About an instruction that was seen the converter is not asked. -/
theorem convertCalls_of_seen {fuel : Nat} (hm : s.memo[i]? ≠ some .unseen) :
    convertCalls conv src fuel i s = [] := by
  cases fuel with
  | zero => rfl
  | succ fuel =>
    rw [convertCalls]
    cases h : s.memo[i]? with
    | none => rfl
    | some m =>
      cases m with
      | unseen => exact absurd h hm
      | inProgress => rfl
      | converted r => rfl

/-- Whether it was converted or is in progress, an instruction that was seen is left alone. -/
theorem after_convert_of_seen {fuel : Nat} (hm : s.memo[i]? ≠ some .unseen) :
    after (convert conv src fuel i) s = s := by
  cases fuel with
  | zero => rfl
  | succ fuel =>
    refine EStateM.after_bind (· = s) (maintains_memoOf (P := (· = s)) i s rfl)
      fun m t hmemo _ => ?_
    obtain ⟨hm', rfl⟩ := memoOf_eq_ok.1 hmemo
    cases m with
    | unseen => exact absurd hm' hm
    | inProgress => rfl
    | converted r => rfl

/-- Converting an instruction begins the conversions about which the converter is asked. -/
theorem begins_convert (conv : Converter ω) (src : Source) (fuel : Nat) (i : InstrId)
    (s : Builder ω) :
    Begins s (convertCalls conv src fuel i s) (after (convert conv src fuel i) s) := by
  induction fuel generalizing i s with
  | zero => exact begins_nil rfl
  | succ fuel ih =>
    by_cases hm : s.memo[i]? = some .unseen
    · have hrun := begins_run src ih (conv src s.context i) (s.remembered i .inProgress)
      rw [convertCalls, hm, after, convert_of_unseen hm]
      refine (begins_begun hm).append (EStateM.after_bind (Begins _ _) hrun fun r t hr ht => ?_)
      have hseen : i ∉ t.unseen := by
        rw [ht.rest, unseen_begun]
        exact fun hi => Finset.notMem_erase i _ hi.1
      exact ht.quiet (begins_ended hseen)
    · rw [convertCalls_of_seen hm, after_convert_of_seen hm]
      exact begins_nil rfl

/-! ### Blocks and functions -/

theorem graphless_begins (s : Builder ω) (is : List InstrId) : Graphless (Begins s is) :=
  fun _ _ h => h.quiet (begins_nil rfl)

theorem begins_buildInstrs (conv : Converter ω) (src : Source) (tail : Tail) (is : List InstrId)
    (s : Builder ω) :
    Begins s (instrsCalls conv src tail is s) (after (is.foldlM (buildInstr conv src) tail) s) := by
  induction is generalizing tail s with
  | nil => exact begins_nil rfl
  | cons i is ih =>
    rw [instrsCalls, List.foldlM_cons]
    exact begins_bind (after_buildInstr (graphless_begins s _) (begins_convert conv src _ i s))
      fun tail t _ => ih tail t

theorem begins_buildBlock (conv : Converter ω) (src : Source) (b : BlockId) (blk : Block)
    (s : Builder ω) :
    Begins s (instrsCalls conv src {} blk.instrs.reverse (s.opened b))
      (after (buildBlock conv src b blk) s) := by
  change Begins s _ (after (blk.instrs.reverse.foldlM (buildInstr conv src) {} >>= _) (s.opened b))
  have hopened : Begins s [] (s.opened b) := begins_nil rfl
  have hinstrs := begins_buildInstrs conv src {} blk.instrs.reverse (s.opened b)
  exact EStateM.after_bind _ (hopened.append hinstrs) fun _ _ _ ht =>
    ht.quiet (begins_nil rfl)

theorem begins_buildBlocks (conv : Converter ω) (src : Source) (blks : List (BlockId × Block))
    (s : Builder ω) :
    Begins s (blocksCalls conv src blks s) (after (buildBlocks conv src blks) s) := by
  induction blks generalizing s with
  | nil => exact begins_nil rfl
  | cons blk blks ih =>
    obtain ⟨b, blk⟩ := blk
    refine begins_bind ?_ fun _ t _ => ih t
    rw [after_atPlace]
    exact begins_buildBlock conv src b blk s

/-- No instruction is asked about twice, whether the builder stops or not. -/
theorem nodup_buildCalls (conv : Converter ω) (src : Source) (s : Builder ω) :
    (buildCalls conv src s).Nodup := by
  unfold buildCalls EStateM.andThen
  split
  · next t _ => exact (begins_buildBlocks conv src src.func.layout t).nodup
  · exact List.nodup_nil

/-! ### Only instructions in blocks are asked about -/

theorem mem_inserted_of_producer? (hcon : src.func.Coherent) {c : Context} {b : BlockId}
    {v : ValueId} (h : producer? src c b v = .ok (some i)) : i ∈ src.func.inserted := by
  have hb : src.func.blockOf i = some b := by
    simp only [producer?, ite_eq_iff, Except.bind_eq_ok, Except.pure_eq_ok, reduceCtorEq, and_false,
      false_or] at h
    obtain ⟨-, d, -, h⟩ := h
    split at h
    · cases Except.pure_eq_ok.1 h
    · simp only [Except.bind_eq_ok, liftFault_eq_ok, Func.instr_eq_ok, ite_eq_iff,
        Except.pure_eq_ok, reduceCtorEq, and_false, or_false, Option.some.injEq] at h
      obtain ⟨ins, hins, hb, rfl⟩ := h
      simp [Func.blockOf, hins, hb]
  exact Func.mem_inserted.2 ⟨b, hcon.mem_instrsOf.2 hb⟩

theorem inserted_of_runCalls (hcon : src.func.Coherent) {visit : InstrId → Build ω NodeRef}
    {calls : InstrId → Builder ω → List InstrId}
    (hcalls : ∀ k ∈ src.func.inserted, ∀ s, ∀ j ∈ calls k s, j ∈ src.func.inserted)
    {c : Conversion ω α} (h : j ∈ runCalls src visit calls c s) : j ∈ src.func.inserted := by
  induction c generalizing s with
  | done a => cases h
  | stop e => cases h
  | inst op args next ih | imm x bits next ih | vreg r next ih | slot m next ih | block b next ih
    | leaf v next ih =>
    obtain ⟨n, t, -, h⟩ := EStateM.mem_andThen h
    exact ih n h
  | operand v next ih =>
    rw [runCalls] at h
    split at h
    · next k hk =>
      rcases List.mem_append.1 h with h | h
      · exact hcalls k (mem_inserted_of_producer? hcon hk) s j h
      · obtain ⟨r, t, -, h⟩ := EStateM.mem_andThen h
        exact ih r h
    · obtain ⟨n, t, -, h⟩ := EStateM.mem_andThen h
      exact ih (some n) h
    · cases h

theorem inserted_of_convertCalls (hcon : src.func.Coherent) (fuel : Nat) :
    ∀ i ∈ src.func.inserted, ∀ s : Builder ω, ∀ j ∈ convertCalls conv src fuel i s,
      j ∈ src.func.inserted := by
  induction fuel with
  | zero => simp [convertCalls]
  | succ fuel ih =>
    intro i hi s j hj
    rw [convertCalls] at hj
    split at hj
    · rcases List.mem_cons.1 hj with rfl | hj
      · exact hi
      · exact inserted_of_runCalls hcon ih hj
    · cases hj

theorem inserted_of_instrsCalls (hcon : src.func.Coherent) {tail : Tail}
    (his : ∀ i ∈ is, i ∈ src.func.inserted) (h : j ∈ instrsCalls conv src tail is s) :
    j ∈ src.func.inserted := by
  induction is generalizing tail s with
  | nil => cases h
  | cons i is ih =>
    obtain ⟨hi, his⟩ := List.forall_mem_cons.1 his
    rcases List.mem_append.1 h with h | h
    · exact inserted_of_convertCalls hcon _ i hi s j h
    · obtain ⟨tail, t, -, h⟩ := EStateM.mem_andThen h
      exact ih his h

theorem inserted_of_blocksCalls (hcon : src.func.Coherent) {blks : List (BlockId × Block)}
    (hblks : ∀ blk ∈ blks, ∀ i ∈ blk.2.instrs, i ∈ src.func.inserted)
    (h : j ∈ blocksCalls conv src blks s) : j ∈ src.func.inserted := by
  induction blks generalizing s with
  | nil => cases h
  | cons blk blks ih =>
    obtain ⟨hblk, hblks⟩ := List.forall_mem_cons.1 hblks
    rcases List.mem_append.1 h with h | h
    · exact inserted_of_instrsCalls hcon (fun i hi => hblk i (List.mem_reverse.1 hi)) h
    · obtain ⟨_, t, -, h⟩ := EStateM.mem_andThen h
      exact ih hblks h

/-- The converter is asked about instructions in blocks, and about none of them twice. -/
theorem buildCalls_subperm (hcon : src.func.Coherent) (conv : Converter ω) (s : Builder ω) :
    (buildCalls conv src s).Subperm src.func.inserted := by
  refine (nodup_buildCalls conv src s).subperm fun j hj => ?_
  obtain ⟨_, t, -, hj⟩ := EStateM.mem_andThen hj
  refine inserted_of_blocksCalls hcon (fun blk hblk i hi => ?_) hj
  rw [← Func.flatMap_layout]
  exact List.mem_flatMap.2 ⟨blk, hblk, hi⟩

/-- If there is a graph at the end, the converter was asked about every instruction in a block
exactly once. -/
theorem buildCalls_perm (hcon : src.func.Coherent) {g : Graph ω}
    (h : build conv src s = .ok g s') : (buildCalls conv src s).Perm src.func.inserted := by
  obtain ⟨s₁, t, hstart, hblocks, rfl, rfl⟩ := build_eq_ok.1 h
  obtain ⟨-, hgraph, hmemo⟩ := start_eq_ok hstart
  obtain ⟨-, -, -, hsize, -⟩ := emptyGraph_eq_ok hgraph
  have hanswered : Answered conv src s₁ := by
    intro i result hi
    simp [hmemo, Array.getElem?_replicate] at hi
  obtain ⟨hcomplete, -⟩ := complete_buildBlocks
    (fun c hc => hsize ▸ Func.mem_map_fst_layout.1 hc) src.func.nodup_map_fst_layout hanswered
    hblocks
  have hbegins := begins_buildBlocks conv src src.func.layout s₁
  rw [EStateM.after_eq_of_ok hblocks] at hbegins
  refine (buildCalls_subperm hcon conv s).antisymm ?_
  refine (Func.nodup_inserted hcon).subperm fun i hi => ?_
  have hi' := hi
  rw [← Func.flatMap_layout] at hi'
  obtain ⟨⟨b, blk⟩, hblk, hi'⟩ := List.mem_flatMap.1 hi'
  -- At the end the instruction is converted, and at the beginning it was not seen.
  obtain ⟨nss, hreturned, -⟩ := hcomplete b blk hblk
  obtain ⟨ns, -, result, _, _, _, hm, -⟩ := exists_mem_of_forall₂ hreturned hi'
  have hseen : i ∉ t.unseen := by
    rw [mem_unseen, hm]
    simp
  have hfresh : i ∈ s₁.unseen := by
    obtain ⟨c, hc⟩ := Func.mem_inserted.1 hi
    rw [mem_unseen, hmemo, Array.getElem?_replicate, if_pos (Func.lt_instrs_of_mem hcon hc)]
  rw [hbegins.rest, not_and_not_right] at hseen
  rw [buildCalls, EStateM.andThen_eq_of_ok hstart]
  exact hseen hfresh

end Builder

end Codegen
