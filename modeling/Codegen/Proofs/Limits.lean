import Codegen.Proofs.Acceptance
import Codegen.Proofs.Construction
import Codegen.Proofs.Reuse

/-!
# The limit on instructions

A compiler and a builder can be given a limit on what they make of a function. A run under a limit
is compared with the run of the same computation without one. What has been made is never taken back,
so that a state within the limit has only states within the limit before it. If the run without a
limit ends within it, the run under the limit ends in the same way; if it gives an answer beyond the
limit, the run under the limit is stopped by it; and if it fails, so does the other.

A compiler looks at the limit behind each instruction of a function, when all that was selected for
the instruction is there. So it refuses just the functions that need more instructions.

## Main definitions

* `Limit`, `Limit.Governs`: a limit, and computations that come to the same end under it.
* `X86.Compiler.instrLimit`: the limit on the instructions of a function.

## Main results

* `Limit.Governs.bind`: two steps in sequence.
* `X86.Compiler.governs_lowerInstr`: lowering an instruction and looking at the limit.
* `X86.Compiler.limit_exact`: compiling under a limit.
-/

namespace Codegen

/-! ### Runs with and without a limit -/

/-- A limit on what a computation leaves in its state. -/
structure Limit (ε σ : Type) where
  /-- The states without a limit. -/
  Free : σ → Prop
  /-- The same state under the limit. -/
  impose : σ → σ
  /-- The states that are within the limit. -/
  Fits : σ → Prop
  /-- The errors of the limit. -/
  Exceeded : ε → Prop

namespace Limit

variable {ε σ α β : Type} {L : Limit ε σ}

/-- A computation that under the limit gives the answer that it gives without one, if what it leaves
is within the limit, and that is stopped by the limit if it is not. -/
structure Governs (L : Limit ε σ) (x : EStateM ε σ α) : Prop where
  free : ∀ {s a t}, L.Free s → x s = .ok a t → L.Free t
  fits : ∀ {s a t}, L.Free s → x s = .ok a t → L.Fits t → L.Fits s
  same : ∀ {s a t}, L.Free s → x s = .ok a t → L.Fits t → x (L.impose s) = .ok a (L.impose t)
  exceeds : ∀ {s a t}, L.Free s → L.Fits s → x s = .ok a t → ¬L.Fits t →
    ∃ e u, x (L.impose s) = .error e u ∧ L.Exceeded e
  fails : ∀ {s e t}, L.Free s → L.Fits s → x s = .error e t → ∃ e' u, x (L.impose s) = .error e' u

theorem Governs.bind {x : EStateM ε σ α} {f : α → EStateM ε σ β} (hx : L.Governs x)
    (hf : ∀ a, L.Governs (f a)) : L.Governs (x >>= f) where
  free hs h := by
    obtain ⟨a, u, ha, hb⟩ := EStateM.bind_eq_ok.1 h
    exact (hf a).free (hx.free hs ha) hb
  fits hs h ht := by
    obtain ⟨a, u, ha, hb⟩ := EStateM.bind_eq_ok.1 h
    exact hx.fits hs ha ((hf a).fits (hx.free hs ha) hb ht)
  same hs h ht := by
    obtain ⟨a, u, ha, hb⟩ := EStateM.bind_eq_ok.1 h
    have hu := hx.free hs ha
    exact EStateM.bind_eq_ok.2
      ⟨a, L.impose u, hx.same hs ha ((hf a).fits hu hb ht), (hf a).same hu hb ht⟩
  exceeds {s b t} hs hfits h ht := by
    obtain ⟨a, u, ha, hb⟩ := EStateM.bind_eq_ok.1 h
    have hu := hx.free hs ha
    by_cases hfit : L.Fits u
    · obtain ⟨e, v, hv, he⟩ := (hf a).exceeds hu hfit hb ht
      exact ⟨e, v, EStateM.bind_eq_error.2 (.inr ⟨a, L.impose u, hx.same hs ha hfit, hv⟩), he⟩
    · obtain ⟨e, v, hv, he⟩ := hx.exceeds hs hfits ha hfit
      exact ⟨e, v, EStateM.bind_eq_error.2 (.inl hv), he⟩
  fails {s e t} hs hfits h := by
    rcases EStateM.bind_eq_error.1 h with ha | ⟨a, u, ha, hb⟩
    · obtain ⟨e', v, hv⟩ := hx.fails hs hfits ha
      exact ⟨e', v, EStateM.bind_eq_error.2 (.inl hv)⟩
    · by_cases hfit : L.Fits u
      · obtain ⟨e', v, hv⟩ := (hf a).fails (hx.free hs ha) hfit hb
        exact ⟨e', v, EStateM.bind_eq_error.2 (.inr ⟨a, L.impose u, hx.same hs ha hfit, hv⟩)⟩
      · obtain ⟨e', v, hv, -⟩ := hx.exceeds hs hfits ha hfit
        exact ⟨e', v, EStateM.bind_eq_error.2 (.inl hv)⟩

/-- A computation that does the same under the limit, and does not go any nearer to it. -/
theorem governs_of_same {x : EStateM ε σ α}
    (h : ∀ s, (∃ a t, x s = .ok a t ∧ x (L.impose s) = .ok a (L.impose t) ∧
        (L.Free s → L.Free t) ∧ (L.Fits t ↔ L.Fits s)) ∨
      ∃ e e' t u, x s = .error e t ∧ x (L.impose s) = .error e' u) : L.Governs x := by
  have hok {s t : σ} {a : α} (hs : x s = .ok a t) : x (L.impose s) = .ok a (L.impose t) ∧
      (L.Free s → L.Free t) ∧ (L.Fits t ↔ L.Fits s) := by
    rcases h s with ⟨a', t', hs', hsame⟩ | ⟨e, e', t', u, hs', -⟩
    · cases hs.symm.trans hs'
      exact hsame
    · cases hs.symm.trans hs'
  refine ⟨fun hs ha => (hok ha).2.1 hs, fun _ ha ht => (hok ha).2.2.1 ht, fun _ ha _ => (hok ha).1,
    fun _ hfits ha ht => absurd ((hok ha).2.2.2 hfits) ht, fun {s e t} _ _ hs => ?_⟩
  rcases h s with ⟨a, t', hs', -⟩ | ⟨_, e', t', u, -, hu⟩
  · cases hs.symm.trans hs'
  · exact ⟨e', u, hu⟩

theorem governs_pure (a : α) : L.Governs (pure a : EStateM ε σ α) :=
  governs_of_same fun s => .inl ⟨a, s, rfl, rfl, id, .rfl⟩

theorem governs_throw (e : ε) : L.Governs (throw e : EStateM ε σ α) :=
  governs_of_same fun s => .inr ⟨e, e, s, L.impose s, rfl, rfl⟩

theorem governs_modify {g : σ → σ} (himpose : ∀ s, g (L.impose s) = L.impose (g s))
    (hfree : ∀ s, L.Free s → L.Free (g s)) (hfits : ∀ s, L.Fits (g s) ↔ L.Fits s) :
    L.Governs (modify g : EStateM ε σ PUnit) :=
  governs_of_same fun s => .inl ⟨(), g s, rfl, by rw [← himpose]; rfl, hfree s, hfits s⟩

/-- What looks at the state may do anything that is the same under the limit. -/
theorem governs_get_bind {f : σ → EStateM ε σ β} (himpose : ∀ s, f (L.impose s) = f s)
    (hf : ∀ s, L.Governs (f s)) : L.Governs (get >>= f) := by
  have hrun (s : σ) : (get >>= f) s = f s s := rfl
  have hlimited (s : σ) : (get >>= f) (L.impose s) = f s (L.impose s) := by
    rw [hrun, himpose]
  exact ⟨fun {s _ _} => (hf s).free, fun {s _ _} => (hf s).fits,
    fun {s _ _} => hlimited s ▸ (hf s).same, fun {s _ _} => hlimited s ▸ (hf s).exceeds,
    fun {s _ _} => hlimited s ▸ (hf s).fails⟩

theorem Governs.ite {p : Prop} [Decidable p] {x y : EStateM ε σ α} (hx : L.Governs x)
    (hy : L.Governs y) : L.Governs (if p then x else y) := by
  split
  · exact hx
  · exact hy

theorem Governs.mapM {f : α → EStateM ε σ β} (hf : ∀ a, L.Governs (f a)) (l : List α) :
    L.Governs (l.mapM f) := by
  induction l with
  | nil => exact governs_pure _
  | cons a l ih =>
    rw [List.mapM_cons]
    exact (hf a).bind fun _ => ih.bind fun _ => governs_pure _

theorem Governs.foldlM {f : β → α → EStateM ε σ β} (hf : ∀ b a, L.Governs (f b a)) (l : List α)
    (b : β) : L.Governs (l.foldlM f b) := by
  induction l generalizing b with
  | nil => exact governs_pure _
  | cons a l ih =>
    rw [List.foldlM_cons]
    exact (hf b a).bind ih

/-- An answer under the limit is an answer without one that is within the limit. -/
theorem Governs.outcome_eq_ok {x : EStateM ε σ α} (hx : L.Governs x) {s : σ} (hs : L.Free s)
    (hfits : L.Fits s) {a : α} :
    EStateM.outcome x (L.impose s) = .ok a ↔ ∃ t, x s = .ok a t ∧ L.Fits t := by
  have hok {a' : α} {t : σ} (h : x s = .ok a' t) :
      EStateM.outcome x (L.impose s) = .ok a ↔ a' = a ∧ L.Fits t := by
    by_cases ht : L.Fits t
    · simp [EStateM.outcome, hx.same hs h ht, ht]
    · obtain ⟨e, u, hu, -⟩ := hx.exceeds hs hfits h ht
      simp [EStateM.outcome, hu, ht]
  cases h : x s with
  | ok a' t => simp [hok h, and_assoc]
  | error e t =>
    obtain ⟨e', u, hu⟩ := hx.fails hs hfits h
    simp [EStateM.outcome, hu]

/-- An answer that is not within the limit is not given under it. -/
theorem Governs.outcome_of_exceeds {x : EStateM ε σ α} (hx : L.Governs x) {s t : σ} (hs : L.Free s)
    (hfits : L.Fits s) {a : α} (h : x s = .ok a t) (ht : ¬L.Fits t) :
    ∃ e, EStateM.outcome x (L.impose s) = .error e ∧ L.Exceeded e := by
  obtain ⟨e, u, hu, he⟩ := hx.exceeds hs hfits h ht
  exact ⟨e, by rw [EStateM.outcome, hu], he⟩

end Limit

section Stop

variable {σ α : Type} {L : Limit Stop σ}

theorem governs_lift (q : Except Stop α) : L.Governs (liftM q : EStateM Stop σ α) := by
  cases q with
  | ok a => exact Limit.governs_pure a
  | error e => exact Limit.governs_throw e

theorem governs_liftFault (q : Except Fault α) : L.Governs (liftM q : EStateM Stop σ α) := by
  cases q with
  | ok a => exact Limit.governs_pure a
  | error e => exact Limit.governs_throw (Stop.fault e)

/-- An error of the limit may pass through a place. -/
theorem Limit.Governs.atPlace {x : EStateM Stop σ α} (hx : L.Governs x) (place : Place)
    (hplace : ∀ e, L.Exceeded e → L.Exceeded (e.within place)) : L.Governs (atPlace place x) where
  free hs h := hx.free hs (atPlace_eq_ok.1 h)
  fits hs h := hx.fits hs (atPlace_eq_ok.1 h)
  same hs h ht := atPlace_eq_ok.2 (hx.same hs (atPlace_eq_ok.1 h) ht)
  exceeds hs hfits h ht := by
    obtain ⟨e, u, hu, he⟩ := hx.exceeds hs hfits (atPlace_eq_ok.1 h) ht
    exact ⟨e.within place, u, by rw [Codegen.atPlace, hu], hplace e he⟩
  fails {s e t} hs hfits h := by
    cases hrun : x s with
    | ok a u => simp [Codegen.atPlace, hrun] at h
    | error e' u =>
      obtain ⟨e'', v, hv⟩ := hx.fails hs hfits hrun
      exact ⟨e''.within place, v, by rw [Codegen.atPlace, hv]⟩

end Stop

/-! ### The instructions of a compiler -/

namespace X86.Compiler

variable {src : Source} {n : Nat}

/-- At most `n` instructions. -/
def instrLimit (n : Nat) : Limit Stop Compiler where
  Free s := s.limit = 0
  impose s := { s with limit := n }
  Fits s := s.emitted.size ≤ n
  Exceeded e := ∃ count places, e = .error ⟨.instructionLimit count n, places⟩ ∧ n < count

theorem exceeded_within {e : Stop} (place : Place) (h : (instrLimit n).Exceeded e) :
    (instrLimit n).Exceeded (e.within place) := by
  obtain ⟨count, places, rfl, hcount⟩ := h
  exact ⟨count, place :: places, rfl, hcount⟩

theorem checkLimit_impose (hn : 0 < n) (s : Compiler) :
    checkLimit ((instrLimit n).impose s) = if n < s.emitted.size
      then .error (.ofCause (.instructionLimit s.emitted.size n)) ((instrLimit n).impose s)
      else .ok () ((instrLimit n).impose s) := by
  change (if 0 < n ∧ n < s.emitted.size then _ else pure () : EStateM _ _ _) _ = _
  by_cases hlt : n < s.emitted.size
  · rw [if_pos hlt, if_pos ⟨hn, hlt⟩]
    rfl
  · rw [if_neg hlt, if_neg fun h => hlt h.2]
    rfl

/-- Lowering an instruction does not look at the limit, and it takes no instruction back. -/
theorem lowerInstr_cases (n : Nat) (src : Source) (i : InstrId) (s : Compiler) :
    (∃ t, lowerInstr src i s = .ok () t ∧
        lowerInstr src i ((instrLimit n).impose s) = .ok () ((instrLimit n).impose t) ∧
        t.limit = s.limit ∧ s.emitted.size ≤ t.emitted.size) ∨
      ∃ e t u, lowerInstr src i s = .error e t ∧
        lowerInstr src i ((instrLimit n).impose s) = .error e u := by
  simp only [lowerInstr, instrLimit]
  cases (select src i).run s.context with
  | ok instrs c =>
    have hle : s.emitted.size ≤ (s.emitted ++ instrs).size := by simp [← Array.length_toList]
    exact .inl ⟨_, rfl, rfl, rfl, hle⟩
  | error e c => exact .inr ⟨e, _, _, rfl, rfl⟩

/-- Lowering an instruction and looking at the limit. The look finds all that was selected. -/
theorem governs_lowerInstr (hn : 0 < n) (src : Source) (i : InstrId) :
    (instrLimit n).Governs (lowerInstr src i >>= fun _ => checkLimit) := by
  have hfree {s t : Compiler} (hs : s.limit = 0)
      (h : (lowerInstr src i >>= fun _ => checkLimit) s = .ok () t) :
      lowerInstr src i ((instrLimit n).impose s) = .ok () ((instrLimit n).impose t) ∧
        t.limit = 0 ∧ s.emitted.size ≤ t.emitted.size := by
    obtain ⟨_, u, hu, ht⟩ := EStateM.bind_eq_ok.1 h
    rcases lowerInstr_cases n src i s with ⟨u', hu', hlimited, hlimit, hle⟩ | ⟨e, _, _, he, -⟩
    · cases hu.symm.trans hu'
      rw [checkLimit_eq (hlimit.trans hs)] at ht
      cases ht
      exact ⟨hlimited, hlimit.trans hs, hle⟩
    · cases hu.symm.trans he
  refine ⟨fun hs h => (hfree hs h).2.1, fun hs h ht => Nat.le_trans (hfree hs h).2.2 ht,
    fun hs h ht => ?_, fun {s _ t} hs _ h ht => ?_, fun {s e t} hs _ h => ?_⟩
  · refine EStateM.bind_eq_ok.2 ⟨(), _, (hfree hs h).1, ?_⟩
    rw [checkLimit_impose hn, if_neg (Nat.not_lt.2 ht)]
  · have hlt : n < t.emitted.size := Nat.lt_of_not_le ht
    refine ⟨.ofCause (.instructionLimit t.emitted.size n), (instrLimit n).impose t, ?_,
      t.emitted.size, [], rfl, hlt⟩
    refine EStateM.bind_eq_error.2 (.inr ⟨(), _, (hfree hs h).1, ?_⟩)
    rw [checkLimit_impose hn, if_pos hlt]
  · rcases lowerInstr_cases n src i s with ⟨u, hu, -, hlimit, -⟩ | ⟨e', _, u, -, hlimited⟩
    · have hok : (lowerInstr src i >>= fun _ => checkLimit) s = .ok () u :=
        EStateM.bind_eq_ok.2 ⟨(), u, hu, checkLimit_eq (hlimit.trans hs)⟩
      cases h.symm.trans hok
    · exact ⟨e', u, EStateM.bind_eq_error.2 (.inl hlimited)⟩

theorem governs_lowerInstrs (hn : 0 < n) (src : Source) (is : List InstrId) :
    (instrLimit n).Governs (lowerInstrs src is) := by
  induction is with
  | nil => exact Limit.governs_pure ()
  | cons i is ih =>
    have hassoc : lowerInstrs src (i :: is) =
        (lowerInstr src i >>= fun _ => checkLimit) >>= fun _ => lowerInstrs src is := by
      rw [bind_assoc]
      rfl
    rw [hassoc]
    exact (governs_lowerInstr hn src i).bind fun _ => ih

theorem governs_lowerBlock (hn : 0 < n) (src : Source) (b : BlockId × Block) :
    (instrLimit n).Governs (lowerBlock src b) := by
  refine Limit.governs_get_bind (fun _ => rfl) fun _ => ?_
  refine ((governs_lowerInstrs hn src b.2.instrs).atPlace _ fun _ => exceeded_within _).bind
    fun _ => ?_
  refine Limit.governs_get_bind (fun _ => rfl) fun _ => ?_
  exact (governs_liftFault _).bind fun _ => Limit.governs_pure _

/-- What is lowered once the compiler has been set up. -/
def lowerBlocks (src : Source) : EStateM Stop Compiler Lowered := do
  let blocks ← src.func.layout.mapM (lowerBlock src)
  let s ← get
  return {
    name := src.func.name
    instrs := s.emitted
    blocks
    regs := s.context.regs
    slots := s.context.slots
    labels := s.context.labels }

theorem governs_lowerBlocks (hn : 0 < n) (src : Source) :
    (instrLimit n).Governs (lowerBlocks src) :=
  (Limit.Governs.mapM (governs_lowerBlock hn src) _).bind fun _ =>
    Limit.governs_get_bind (fun _ => rfl) fun _ => Limit.governs_pure _

theorem instrs_lowerBlocks {s t : Compiler} {code : Lowered}
    (h : lowerBlocks src s = .ok code t) : code.instrs = t.emitted := by
  simp only [lowerBlocks, EStateM.bind_eq_ok, EStateM.get_eq_ok, EStateM.pure_eq_ok] at h
  obtain ⟨_, _, -, _, _, ⟨rfl, rfl⟩, rfl, rfl⟩ := h
  rfl

/-- What a compiler with a limit makes of a function is made of the blocks by a compiler that was
set up for it. -/
theorem outcome_compile_setLimit (src : Source) (s : Compiler) (n : Nat) :
    EStateM.outcome (compile src) (s.perform (.setLimit n)) =
      match Context.ofFunc src.func with
      | .ok context => EStateM.outcome (lowerBlocks src) { context, limit := n }
      | .error e => .error (.fault e) := by
  have hfunc : lowerFunc src = start src >>= fun _ => lowerBlocks src := rfl
  rw [outcome_compile_eq, hfunc]
  simp only [EStateM.outcome, bind, EStateM.bind, start_eq]
  cases Context.ofFunc src.func <;> rfl

/-- Compiling a function under a limit of `n` instructions succeeds just if it succeeds without a
limit and gives at most `n` instructions, and then both give the same. If there are more than `n`
instructions without a limit, compiling under the limit stops with the error of the limit, which
names a number of instructions beyond it. -/
theorem limit_exact (src : Source) (s : Compiler) (hn : 1 ≤ n) :
    (∀ code, EStateM.outcome (compile src) (s.perform (.setLimit n)) = .ok code ↔
      EStateM.outcome (compile src) (s.perform (.setLimit 0)) = .ok code ∧
        code.instrs.size ≤ n) ∧
    ∀ code, EStateM.outcome (compile src) (s.perform (.setLimit 0)) = .ok code →
      n < code.instrs.size → ∃ count places, n < count ∧
        EStateM.outcome (compile src) (s.perform (.setLimit n)) =
          .error (.error ⟨.instructionLimit count n, places⟩) := by
  simp only [outcome_compile_setLimit]
  cases Context.ofFunc src.func with
  | error e => simp
  | ok c =>
    have hgoverns := governs_lowerBlocks hn src
    have hfree : (instrLimit n).Free { context := c } := rfl
    have hfits : (instrLimit n).Fits { context := c } := Nat.zero_le n
    refine ⟨fun code => (hgoverns.outcome_eq_ok hfree hfits).trans ?_, fun code h hlt => ?_⟩
    · simp only [EStateM.outcome_eq_ok, ← exists_and_right]
      exact exists_congr fun t => and_congr_right fun ht => by
        rw [instrs_lowerBlocks ht]
        rfl
    · obtain ⟨t, ht⟩ := EStateM.outcome_eq_ok.1 h
      rw [instrs_lowerBlocks ht] at hlt
      obtain ⟨e, he, count, places, rfl, hcount⟩ :=
        hgoverns.outcome_of_exceeds hfree hfits ht (Nat.not_le.2 hlt)
      exact ⟨count, places, hcount, he⟩

/-- A limit that the sample function just keeps, and one that is too small by one. -/
theorem limit_exact_sample :
    (1 ≤ 17 ∧ 1 ≤ 16) ∧ ∃ code,
      EStateM.outcome (compile ⟨Func.sampleTypes, Func.sample⟩) (perform {} (.setLimit 0)) =
        .ok code ∧ code.instrs.size = 17 ∧
      EStateM.outcome (compile ⟨Func.sampleTypes, Func.sample⟩) (perform {} (.setLimit 17)) =
        .ok code ∧
      ∃ count places, 16 < count ∧
        EStateM.outcome (compile ⟨Func.sampleTypes, Func.sample⟩) (perform {} (.setLimit 16)) =
          .error (.error ⟨.instructionLimit count 16, places⟩) := by
  have hgives : EStateM.gives (fun code => code.instrs.size == 17)
      (compile ⟨Func.sampleTypes, Func.sample⟩ (perform {} (.setLimit 0))) = true := by
    decide +kernel
  obtain ⟨code, t, hcode, hsize⟩ := EStateM.eq_ok_of_gives hgives
  have hsize : code.instrs.size = 17 := eq_of_beq hsize
  have hfree := EStateM.outcome_eq_ok.2 ⟨t, hcode⟩
  refine ⟨by decide, code, hfree, hsize, ?_, ?_⟩
  · exact ((limit_exact _ _ (by decide)).1 code).2 ⟨hfree, by omega⟩
  · exact (limit_exact _ _ (by decide)).2 code hfree (by omega)

end X86.Compiler

end Codegen
