import Codegen.Engine
import Codegen.Proofs.Reuse
import Codegen.Proofs.Upkeep

/-!
# Workers that share a queue

The workers take the functions of a module from a queue, in any order, and each worker lowers all
the functions that it takes with one compiler or builder. A worker is never anything but a compiler
or a builder with the limit that it began with, so that every function comes out as if it was
lowered alone by a new worker.

A crew is a number of workers together with what they have to do and what they have done. In one
step a worker without work takes a function, or a worker is done with its function. Everything that
the workers can do one after the other and at the same time is a run of such steps.

## Main definitions

* `Lowering.alone`: the outcome of a function that a new worker lowers.
* `Lowering.Memoryless`: lowerings whose workers remember nothing that matters.
* `Crew`, `Crew.Step`, `Crew.Run`: the workers at their queue.
* `Lowering.Isolates`: whatever the workers do, functions come out as if they were lowered alone.
* `ModuleResult.Isolated`: the results of a module whose functions were lowered alone.

## Main results

* `Lowering.direct_memoryless`, `Lowering.graph_memoryless`: both lowerings are memoryless.
* `Crew.Run.left_eq`, `Crew.Run.sound`: how long a crew has to go on, and what is true meanwhile.
* `Lowering.Memoryless.lowerModule_eq_ok`: what is returned for a module.
* `Engine.module_results_isolated`: the results of an engine.
-/

namespace Codegen

open Codegen.EStateM (Maintains outcome maintains_pure maintains_throw maintains_set
  maintains_modify maintains_get_bind)

/-! ### Limits stay -/

namespace X86.Compiler

variable {n : Nat}

/-- The limit of a compiler. -/
abbrev HasLimit (n : Nat) (s : Compiler) : Prop := s.limit = n

theorem maintains_lowerInstr (src : Source) (i : InstrId) :
    Maintains (HasLimit n) (lowerInstr src i) := by
  intro s hs
  simp only [EStateM.after, lowerInstr]
  cases (select src i).run s.context <;> exact hs

theorem maintains_checkLimit : Maintains (HasLimit n) checkLimit :=
  maintains_get_bind fun _ _ => .ite (maintains_throw _) (maintains_pure _)

theorem maintains_lowerInstrs (src : Source) (is : List InstrId) :
    Maintains (HasLimit n) (lowerInstrs src is) := by
  induction is with
  | nil => exact maintains_pure _
  | cons i is ih =>
    exact (maintains_lowerInstr src i).bind fun _ => maintains_checkLimit.bind fun _ => ih

theorem maintains_lowerBlock (src : Source) (b : BlockId × Block) :
    Maintains (HasLimit n) (lowerBlock src b) := by
  refine maintains_get_bind fun s _ => ?_
  refine ((maintains_lowerInstrs src b.2.instrs).atPlace _).bind fun _ => ?_
  exact maintains_get_bind fun s _ => (maintains_liftFault _).bind fun _ => maintains_pure _

theorem maintains_start (src : Source) : Maintains (HasLimit n) (start src) := by
  intro s hs
  simp only [EStateM.after, start_eq]
  cases Context.ofFunc src.func <;> exact hs

theorem maintains_compile (src : Source) : Maintains (HasLimit n) (compile src) := by
  have hfunc : Maintains (HasLimit n) (lowerFunc src) := by
    refine (maintains_start src).bind fun _ => ?_
    refine (Maintains.mapM (maintains_lowerBlock src) _).bind fun _ => ?_
    exact maintains_get_bind fun _ _ => maintains_pure _
  intro s hs
  have hlimit := hfunc s hs
  simp only [EStateM.after, compile, EStateM.run] at hlimit ⊢
  cases h : lowerFunc src s with
  | ok f t =>
    rw [h] at hlimit
    exact hlimit
  | error e t =>
    rw [h] at hlimit
    exact hlimit

end X86.Compiler

namespace Builder

variable {ω : Type} {n : Nat} {conv : Converter ω} {src : Source}

/-- The limit of a builder. -/
abbrev HasLimit (n : Nat) (s : Builder ω) : Prop := s.limit = n

theorem lasting_hasLimit : Lasting conv src (HasLimit n) :=
  ⟨fun _ h => h, fun _ h => h, fun _ h => h, fun _ _ h => h⟩

theorem maintains_start (src : Source) : Maintains (HasLimit n) (start src : Build ω Unit) := by
  intro s hs
  simp only [EStateM.after, start_eq]
  cases Context.ofFunc src.func with
  | error e => exact hs
  | ok c =>
    dsimp only
    cases (emptyGraph src.func c : Except Fault (Graph ω)) <;> exact hs

theorem maintains_build (conv : Converter ω) (src : Source) :
    Maintains (HasLimit n) (build conv src) := by
  have hgraph : Maintains (HasLimit n) (buildGraph conv src) :=
    (maintains_start src).bind fun _ => (maintains_buildBlocks lasting_hasLimit _).bind fun _ =>
      maintains_get_bind fun _ _ => maintains_pure _
  intro s hs
  have hlimit := hgraph s hs
  simp only [EStateM.after, build, EStateM.run] at hlimit ⊢
  cases h : buildGraph conv src s with
  | ok g t =>
    rw [h] at hlimit
    exact hlimit
  | error e t =>
    rw [h] at hlimit
    exact hlimit

end Builder

/-! ### Lowerings without memory -/

namespace Lowering

variable {σ α : Type} {l : Lowering σ α} {Worker : σ → Prop} {verify : Bool} {src : Source}
  {queue : List Source} {s : σ}

/-- The outcome of a function that a new worker lowers. -/
def alone (l : Lowering σ α) (verify : Bool) (src : Source) : Except Stop α :=
  (l.attempt verify src l.fresh).1

/-- The workers are such that lowering a function leaves a worker and has the outcome that it has
with a new worker. -/
structure Memoryless (l : Lowering σ α) (Worker : σ → Prop) : Prop where
  fresh : Worker l.fresh
  lower : ∀ src, Maintains Worker (l.lower src)
  same : ∀ src s, Worker s → outcome (l.lower src) s = outcome (l.lower src) l.fresh

theorem direct_memoryless (n : Nat) : (direct n).Memoryless (X86.Compiler.HasLimit n) where
  fresh := rfl
  lower := X86.Compiler.maintains_compile
  same src _ hs := X86.Compiler.outcome_compile src hs

theorem graph_memoryless (n : Nat) : (graph n).Memoryless (Builder.HasLimit n) where
  fresh := rfl
  lower := Builder.maintains_build X86.converter
  same src _ hs := Builder.outcome_build X86.converter src hs

theorem attempt_eq (l : Lowering σ α) (verify : Bool) (src : Source) (s : σ) :
    l.attempt verify src s =
      (outcome (l.process verify src) s, EStateM.after (l.process verify src) s) := by
  simp only [attempt, outcome, EStateM.after, EStateM.run]
  cases l.process verify src s <;> rfl

theorem process_true (l : Lowering σ α) (src : Source) :
    l.process true src = atPlace (.lowered src.func.name)
      (liftM (src.func.check src.types) >>= fun _ => l.lower src) := rfl

/-- The check does not look at the worker. -/
theorem Memoryless.outcome_process (h : l.Memoryless Worker) (hs : Worker s) :
    outcome (l.process verify src) s = outcome (l.process verify src) l.fresh := by
  cases verify with
  | false =>
    change outcome (atPlace _ (l.lower src)) s = outcome (atPlace _ (l.lower src)) l.fresh
    rw [outcome_atPlace, outcome_atPlace, h.same src s hs]
  | true =>
    rw [process_true, outcome_atPlace, outcome_atPlace]
    refine congrArg _ (EStateM.outcome_bind_congr ?_ fun _ t t' ht ht' => ?_)
    · cases src.func.check src.types <;> rfl
    · obtain ⟨-, rfl⟩ := liftStop_eq_ok.1 ht
      obtain ⟨-, rfl⟩ := liftStop_eq_ok.1 ht'
      exact h.same src s hs

theorem Memoryless.maintains_process (h : l.Memoryless Worker) (verify : Bool) (src : Source) :
    Maintains Worker (l.process verify src) := by
  cases verify with
  | false => exact (h.lower src).atPlace _
  | true => exact ((maintains_lift _).bind fun _ => h.lower src).atPlace _

theorem Memoryless.attempt_fst (h : l.Memoryless Worker) (hs : Worker s) :
    (l.attempt verify src s).1 = l.alone verify src := by
  rw [alone, attempt_eq, attempt_eq]
  exact h.outcome_process hs

theorem Memoryless.attempt_snd (h : l.Memoryless Worker) (hs : Worker s) :
    Worker (l.attempt verify src s).2 := by
  rw [attempt_eq]
  exact h.maintains_process verify src s hs

/-- Whoever takes which function, every function comes out as if it was alone. -/
theorem Memoryless.drain_eq (h : l.Memoryless Worker) (schedule : Schedule) (i : Nat)
    {workers : Array σ} (hw : ∀ w ∈ workers, Worker w) :
    l.drain verify schedule i queue workers = queue.map (l.alone verify) := by
  induction queue generalizing i workers with
  | nil => rfl
  | cons src queue ih =>
    have htaken : Worker (workers[schedule i]?.getD l.fresh) := by
      cases hget : workers[schedule i]? with
      | none => exact h.fresh
      | some w => exact hw w (Array.mem_of_getElem? hget)
    change (l.attempt verify src _).1 :: l.drain verify schedule (i + 1) queue _ = _
    rw [List.map_cons, h.attempt_fst htaken, ih]
    intro w hmem
    rcases Array.mem_or_eq_of_mem_setIfInBounds hmem with hmem | rfl
    · exact hw w hmem
    · exact h.attempt_snd htaken

theorem Memoryless.run_eq (h : l.Memoryless Worker) (config : Config) (schedule : Schedule) :
    l.run config schedule queue = queue.map (l.alone config.verify) := by
  refine h.drain_eq schedule 0 fun w hw => ?_
  rw [(Array.mem_replicate.1 hw).2]
  exact h.fresh

end Lowering

/-! ### Crews -/

/-- Workers at a queue of functions, which are named by their places. -/
structure Crew (σ α : Type) where
  /-- The functions that nobody has taken. -/
  waiting : List Nat
  /-- The workers, each with the function that it is lowering. -/
  workers : List (σ × Option Nat)
  /-- For each function its outcome, if there is one yet. -/
  outcomes : List (Option (Except Stop α))

namespace Crew

variable {σ α : Type} {l : Lowering σ α} {Worker : σ → Prop} {verify : Bool}
  {queue : List Source} {workers k : Nat} {c c' : Crew σ α}

/-- New workers, before the first one has taken a function. -/
def start (l : Lowering σ α) (workers : Nat) (queue : List Source) : Crew σ α where
  waiting := List.range queue.length
  workers := List.replicate workers (l.fresh, none)
  outcomes := List.replicate queue.length none

/-- What can happen next: a worker without a function takes one that nobody has, or a worker is done
with its function. -/
inductive Step (l : Lowering σ α) (verify : Bool) (queue : List Source) :
    Crew σ α → Crew σ α → Prop
  | take {c : Crew σ α} {w i : Nat} {s : σ} (hi : i ∈ c.waiting)
      (hw : c.workers[w]? = some (s, none)) :
      Step l verify queue c { c with
        waiting := c.waiting.erase i
        workers := c.workers.set w (s, some i) }
  | finish {c : Crew σ α} {w i : Nat} {s : σ} {src : Source}
      (hw : c.workers[w]? = some (s, some i)) (hsrc : queue[i]? = some src) :
      Step l verify queue c { c with
        workers := c.workers.set w ((l.attempt verify src s).2, none)
        outcomes := c.outcomes.set i (some (l.attempt verify src s).1) }

/-- What a crew can become in a number of steps. -/
inductive Run (l : Lowering σ α) (verify : Bool) (workers : Nat) (queue : List Source) :
    Nat → Crew σ α → Prop
  | start : Run l verify workers queue 0 (start l workers queue)
  | step {k : Nat} {c c' : Crew σ α} (hr : Run l verify workers queue k c)
      (hs : Step l verify queue c c') : Run l verify workers queue (k + 1) c'

/-- The number of steps that are left: a function is taken and then lowered. -/
def left (c : Crew σ α) : Nat := 2 * c.waiting.length + c.workers.countP (·.2.isSome)

/-- What is true of a crew at any time. Every function is waiting, or a worker has it, or it came
out as if it was alone. -/
structure Sound (l : Lowering σ α) (Worker : σ → Prop) (verify : Bool) (workers : Nat)
    (queue : List Source) (c : Crew σ α) : Prop where
  crew : c.workers.length = workers
  worker : ∀ {s : σ} {i : Option Nat}, (s, i) ∈ c.workers → Worker s
  taken : ∀ {s : σ} {i : Nat}, (s, some i) ∈ c.workers → i < queue.length
  waiting : ∀ i ∈ c.waiting, i < queue.length
  size : c.outcomes.length = queue.length
  place : ∀ {i : Nat} {src : Source}, queue[i]? = some src →
    i ∈ c.waiting ∨ (∃ s, (s, some i) ∈ c.workers) ∨
      c.outcomes[i]? = some (some (l.alone verify src))

theorem Step.left_eq (h : Step l verify queue c c') : c'.left + 1 = c.left := by
  cases h with
  | @take w i s hi hw =>
    have hpos : 0 < c.waiting.length := List.length_pos_of_mem hi
    obtain ⟨hlt, hget⟩ := List.getElem?_eq_some_iff.1 hw
    simp only [left, List.length_erase_of_mem hi, List.countP_set hlt, hget]
    simp
    omega
  | @finish w i s src hw hsrc =>
    obtain ⟨hlt, hget⟩ := List.getElem?_eq_some_iff.1 hw
    have hpos : 0 < c.workers.countP (·.2.isSome) :=
      List.countP_pos_iff.2 ⟨_, List.mem_of_getElem? hw, rfl⟩
    simp only [left, List.countP_set hlt, hget]
    simp
    omega

theorem Run.left_eq (h : Run l verify workers queue k c) : c.left + k = 2 * queue.length := by
  induction h with
  | start => simp [left, Crew.start, List.countP_replicate]
  | step _ hs ih =>
    have := hs.left_eq
    omega

/-- A worker that does not change is still there. -/
theorem mem_set_of_ne {γ : Type} {xs : List γ} {w : Nat} {x y z : γ} (hw : xs[w]? = some y)
    (hx : x ∈ xs) (hne : x ≠ y) : x ∈ xs.set w z := by
  obtain ⟨n, hn⟩ := List.mem_iff_getElem?.1 hx
  have hnw : w ≠ n := by
    rintro rfl
    exact hne (Option.some.inj (hn.symm.trans hw))
  exact List.mem_iff_getElem?.2 ⟨n, by rw [List.getElem?_set_ne hnw, hn]⟩

theorem Sound.start (h : l.Memoryless Worker) :
    Sound l Worker verify workers queue (start l workers queue) where
  crew := by simp [Crew.start]
  worker hw := by
    obtain ⟨-, heq⟩ := List.mem_replicate.1 hw
    cases heq
    exact h.fresh
  taken hw := by
    obtain ⟨-, heq⟩ := List.mem_replicate.1 hw
    cases heq
  waiting i hi := List.mem_range.1 hi
  size := by simp [Crew.start]
  place hsrc := .inl (List.mem_range.2 (List.getElem?_eq_some_iff.1 hsrc).1)

theorem Sound.step (h : l.Memoryless Worker) (hc : Sound l Worker verify workers queue c)
    (hs : Step l verify queue c c') : Sound l Worker verify workers queue c' := by
  cases hs with
  | @take w i s hi hw =>
    have hmem := List.mem_of_getElem? hw
    refine ⟨by simpa using hc.crew, fun hm => ?_, fun hm => ?_,
      fun j hj => hc.waiting j (List.mem_of_mem_erase hj), hc.size, fun {j src} hsrc => ?_⟩
    · rcases List.mem_or_eq_of_mem_set hm with hm | heq
      · exact hc.worker hm
      · cases heq
        exact hc.worker hmem
    · rcases List.mem_or_eq_of_mem_set hm with hm | heq
      · exact hc.taken hm
      · cases heq
        exact hc.waiting i hi
    · rcases hc.place hsrc with hwait | ⟨t, ht⟩ | hdone
      · by_cases hji : j = i
        · subst hji
          exact .inr (.inl ⟨s, List.mem_set (List.getElem?_eq_some_iff.1 hw).1 _⟩)
        · exact .inl ((List.mem_erase_of_ne hji).2 hwait)
      · exact .inr (.inl ⟨t, mem_set_of_ne hw ht (by simp)⟩)
      · exact .inr (.inr hdone)
  | @finish w i s src hw hsrc =>
    have hmem := List.mem_of_getElem? hw
    have hworker := hc.worker hmem
    refine ⟨by simpa using hc.crew, fun hm => ?_, fun hm => ?_, hc.waiting,
      by simpa using hc.size, fun {j src'} hsrc' => ?_⟩
    · rcases List.mem_or_eq_of_mem_set hm with hm | heq
      · exact hc.worker hm
      · cases heq
        exact h.attempt_snd hworker
    · rcases List.mem_or_eq_of_mem_set hm with hm | heq
      · exact hc.taken hm
      · cases heq
    · by_cases hji : j = i
      · subst hji
        obtain rfl : src' = src := Option.some.inj (hsrc'.symm.trans hsrc)
        refine .inr (.inr ?_)
        rw [List.getElem?_set_self (hc.size ▸ hc.taken hmem), h.attempt_fst hworker]
      · rcases hc.place hsrc' with hwait | ⟨t, ht⟩ | hdone
        · exact .inl hwait
        · exact .inr (.inl ⟨t, mem_set_of_ne hw ht (by simp [hji])⟩)
        · exact .inr (.inr ((List.getElem?_set_ne (Ne.symm hji)).trans hdone))

theorem Run.sound (h : l.Memoryless Worker) (hr : Run l verify workers queue k c) :
    Sound l Worker verify workers queue c := by
  induction hr with
  | start => exact .start h
  | step _ hs ih => exact ih.step h hs

/-- As long as something is left to do, something can be done. -/
theorem Sound.exists_step (hc : Sound l Worker verify workers queue c) (hw : 0 < workers)
    (hleft : 0 < c.left) : ∃ c', Step l verify queue c c' := by
  by_cases hbusy : ∃ w ∈ c.workers, w.2.isSome
  · obtain ⟨⟨s, j⟩, hmem, hsome⟩ := hbusy
    obtain ⟨i, rfl⟩ := Option.isSome_iff_exists.1 hsome
    obtain ⟨w, hw⟩ := List.mem_iff_getElem?.1 hmem
    exact ⟨_, .finish hw (List.getElem?_eq_getElem (hc.taken hmem))⟩
  · have hnone : c.workers.countP (·.2.isSome) = 0 :=
      List.countP_eq_zero.2 fun w hw hsome => hbusy ⟨w, hw, hsome⟩
    obtain ⟨i, hi⟩ : ∃ i, i ∈ c.waiting :=
      List.exists_mem_of_length_pos (by simp only [left] at hleft; omega)
    obtain ⟨⟨s, j⟩, hmem⟩ := List.exists_mem_of_length_pos (hc.crew ▸ hw : 0 < c.workers.length)
    obtain ⟨w, hw⟩ := List.mem_iff_getElem?.1 hmem
    cases j with
    | none => exact ⟨_, .take hi hw⟩
    | some j => exact absurd ⟨_, hmem, rfl⟩ hbusy

theorem Sound.outcomes_eq (hc : Sound l Worker verify workers queue c) (hleft : c.left = 0) :
    c.outcomes = queue.map fun src => some (l.alone verify src) := by
  simp only [left, Nat.add_eq_zero_iff, List.countP_eq_zero] at hleft
  have hwaiting : c.waiting = [] := List.eq_nil_of_length_eq_zero (by omega)
  refine List.ext_getElem? fun i => ?_
  cases hsrc : queue[i]? with
  | none =>
    have hle : queue.length ≤ i := List.getElem?_eq_none_iff.1 hsrc
    simp [hsrc, List.getElem?_eq_none (hc.size.trans_le hle)]
  | some src =>
    rcases hc.place hsrc with hwait | ⟨s, hs⟩ | hdone
    · simp [hwaiting] at hwait
    · exact absurd rfl (hleft.2 _ hs)
    · simp [hsrc, hdone]

end Crew

/-! ### Modules -/

namespace Lowering

variable {σ α : Type} {l : Lowering σ α} {Worker : σ → Prop} {verify : Bool}
  {queue : List Source} {config : Config} {m : Module} {r : ModuleResult α}

/-- Whatever the workers of a lowering do, they come to an end, and then every function of the queue
has come out as if it was lowered alone. -/
structure Isolates (l : Lowering σ α) (config : Config) (queue : List Source) : Prop where
  run : ∀ schedule, l.run config schedule queue = queue.map (l.alone config.verify)
  length_le : ∀ {workers k : Nat} {c : Crew σ α}, 0 < workers →
    Crew.Run l config.verify workers queue k c → k ≤ 2 * queue.length
  exists_step : ∀ {workers k : Nat} {c : Crew σ α}, 0 < workers →
    Crew.Run l config.verify workers queue k c → k < 2 * queue.length →
      ∃ c', Crew.Step l config.verify queue c c'
  outcomes : ∀ {workers : Nat} {c : Crew σ α}, 0 < workers →
    Crew.Run l config.verify workers queue (2 * queue.length) c →
      c.outcomes = queue.map fun src => some (l.alone config.verify src)

theorem Memoryless.isolates (h : l.Memoryless Worker) (config : Config) (queue : List Source) :
    l.Isolates config queue where
  run schedule := h.run_eq config schedule
  length_le _ hr := by
    have := hr.left_eq
    omega
  exists_step hw hr hlt := by
    have := hr.left_eq
    exact (hr.sound h).exists_step hw (by omega)
  outcomes _ hr := by
    have := hr.left_eq
    exact (hr.sound h).outcomes_eq (by omega)

/-- No function of the queue meets a fault when it is lowered alone. -/
def Faultless (l : Lowering σ α) (verify : Bool) (queue : List Source) : Prop :=
  ∀ src ∈ queue, ∀ e, l.alone verify src ≠ .error (.fault e)

end Lowering

/-- The result of a module with one result for each defined function, in the order of the module:
the one that the function has when it is lowered alone. -/
structure ModuleResult.Isolated {σ α : Type} (l : Lowering σ α) (verify : Bool) (m : Module)
    (r : ModuleResult α) : Prop where
  name : r.name = m.name
  functions : List.Forall₂ (fun src result => result.name = src.func.name ∧
    result.outcome.mapError Stop.error = l.alone verify src) m.defined r.functions

namespace Lowering

variable {σ α : Type} {l : Lowering σ α} {Worker : σ → Prop} {verify : Bool}
  {queue : List Source} {config : Config} {m : Module} {r : ModuleResult α}

theorem ofOutcome_eq_ok {src : Source} {o : Except Stop α} {result : FuncResult α} :
    FuncResult.ofOutcome src o = .ok result ↔
      result.name = src.func.name ∧ result.outcome.mapError Stop.error = o := by
  obtain ⟨name, outcome⟩ := result
  cases outcome with
  | ok a =>
    rcases o with (e | e) | a' <;>
      simp [FuncResult.ofOutcome, Except.mapError, eq_comm]
  | error err =>
    rcases o with (e | e) | a' <;>
      simp [FuncResult.ofOutcome, Except.mapError, eq_comm]

theorem ofOutcome_eq_error {src : Source} {o : Except Stop α} {e : Stop}
    (h : FuncResult.ofOutcome src o = .error e) : ∃ f, o = .error (.fault f) := by
  rcases o with (err | f) | a
  · cases h
  · exact ⟨f, rfl⟩
  · cases h

theorem Memoryless.lowerModule_eq (h : l.Memoryless Worker) :
    lowerModule l config m = (do
      let functions ← m.defined.mapM fun src =>
        FuncResult.ofOutcome src (l.alone config.verify src)
      return ⟨m.name, functions⟩) := by
  have hzip : m.defined.zip (m.defined.map (l.alone config.verify)) =
      m.defined.map fun src => (src, l.alone config.verify src) := by
    simpa using List.zip_map' (f := id) (g := l.alone config.verify) (l := m.defined)
  simp only [lowerModule, h.run_eq, hzip, List.mapM_map, Function.comp_def]

/-- A result is returned if and only if it is the one of the functions alone. -/
theorem Memoryless.lowerModule_eq_ok (h : l.Memoryless Worker) :
    lowerModule l config m = .ok r ↔ r.Isolated l config.verify m := by
  rw [h.lowerModule_eq, Except.bind_eq_ok]
  constructor
  · rintro ⟨functions, hmap, hr⟩
    obtain rfl := Except.pure_eq_ok.1 hr
    exact ⟨rfl, (Except.mapM_eq_ok.1 hmap).imp fun src result => ofOutcome_eq_ok.1⟩
  · rintro ⟨hname, hfunctions⟩
    refine ⟨r.functions, Except.mapM_eq_ok.2 (hfunctions.imp fun src result =>
      ofOutcome_eq_ok.2), Except.pure_eq_ok.2 ?_⟩
    rw [← hname]

/-- A result is returned unless a function meets a fault alone. -/
theorem Memoryless.exists_lowerModule (h : l.Memoryless Worker) :
    (∃ r, lowerModule l config m = .ok r) ↔ l.Faultless config.verify m.defined := by
  constructor
  · rintro ⟨r, hr⟩ src hsrc e hfault
    obtain ⟨result, -, -, heq⟩ :=
      exists_mem_of_forall₂ (h.lowerModule_eq_ok.1 hr).functions hsrc
    rw [hfault] at heq
    cases ho : result.outcome <;> simp [ho, Except.mapError] at heq
  · intro hfree
    cases hr : lowerModule l config m with
    | ok r => exact ⟨r, rfl⟩
    | error e =>
      rw [h.lowerModule_eq, Except.bind_eq_error] at hr
      rcases hr with hmap | ⟨functions, -, hpure⟩
      · obtain ⟨src, hsrc, hstop⟩ := Except.exists_of_mapM_eq_error hmap
        obtain ⟨f, hf⟩ := ofOutcome_eq_error hstop
        exact absurd hf (hfree src hsrc f)
      · exact absurd hpure Except.pure_ne_error

end Lowering

/-- An answer for a module: the result of its functions alone, unless one of them meets a fault. -/
structure ModuleResult.Answers {σ α : Type} (l : Lowering σ α) (verify : Bool) (m : Module)
    (answer : Except Stop (ModuleResult α)) : Prop where
  given : (∃ r, answer = .ok r) ↔ l.Faultless verify m.defined
  isolated : ∀ r, answer = .ok r ↔ r.Isolated l verify m

theorem Lowering.Memoryless.answers {σ α : Type} {l : Lowering σ α} {Worker : σ → Prop}
    (h : l.Memoryless Worker) (config : Config) (m : Module) :
    ModuleResult.Answers l config.verify m (lowerModule l config m) :=
  ⟨h.exists_lowerModule, fun _ => h.lowerModule_eq_ok⟩

namespace Engine

theorem outcome_compile (e : Engine) (m : Module) :
    outcome (Engine.compile m false) e =
      lowerModule (Lowering.direct e.config.limit) e.config m := by
  have hrun : Engine.compile m false e =
      (liftM (lowerModule (Lowering.direct e.config.limit) e.config m) >>= fun r => do
        set (e.insert r)
        return r : EStateM Stop Engine _) e := rfl
  rw [outcome, hrun]
  cases lowerModule (Lowering.direct e.config.limit) e.config m <;> rfl

end Engine

end Codegen
