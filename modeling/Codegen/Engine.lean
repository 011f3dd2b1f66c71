import Codegen.Config
import Codegen.Func.Check
import Codegen.Graph.Builder
import Codegen.Module
import Codegen.X86.Compiler
import Codegen.X86.Conversion

/-!
# Lowering modules

The functions of a module stand in a queue from which the workers take them. Every worker has a
compiler or a builder of its own, which it uses for all the functions that it takes. A function
that fails does not keep the others from being lowered. An engine keeps the modules that it has
compiled, by their names.

## Main definitions

* `Lowering`: a way to lower functions.
* `Schedule`: which worker takes which function.
* `lowerModule`: the outcome of every defined function.
* `ModuleResult`: a lowered module.
* `Engine`: an engine; `Engine.compile` and `Engine.buildGraphs` lower a module.
-/

namespace Codegen

/-! ### Workers -/

/-- A way to lower functions to `α` by workers with the state `σ`. -/
structure Lowering (σ α : Type) where
  /-- The state of a new worker. -/
  fresh : σ
  /-- Lowers a function. -/
  lower : Source → EStateM Stop σ α

/-- Lowering to machine instructions. -/
def Lowering.direct (limit : Nat) : Lowering X86.Compiler X86.Lowered where
  fresh := { limit }
  lower := X86.Compiler.compile

/-- Lowering to graphs. -/
def Lowering.graph (limit : Nat) : Lowering (Builder X86.Opcode) (Graph X86.Opcode) where
  fresh := { limit }
  lower := Builder.build X86.converter

namespace Lowering

variable {σ α : Type} (l : Lowering σ α)

/-- Checks a function if that is asked for, and lowers it. -/
def process (verify : Bool) (src : Source) : EStateM Stop σ α :=
  atPlace (.lowered src.func.name) do
    if verify then src.func.check src.types
    l.lower src

/-- The outcome of a function, and the worker afterwards. -/
def attempt (verify : Bool) (src : Source) (worker : σ) : Except Stop α × σ :=
  match (l.process verify src).run worker with
  | .ok a worker => (.ok a, worker)
  | .error e worker => (.error e, worker)

/-- Which worker takes the function at a place of the queue. -/
abbrev Schedule := Nat → Nat

/-- The workers take the functions in turn. -/
def Schedule.inTurn (workers : Nat) : Schedule := fun i => i % workers

/-- Takes the functions from the queue, the first of which has the place `i`. A worker that was
never asked is a new one. -/
def drain (verify : Bool) (schedule : Schedule) :
    Nat → List Source → Array σ → List (Except Stop α)
  | _, [], _ => []
  | i, src :: queue, workers =>
    let (outcome, worker) := l.attempt verify src (workers[schedule i]?.getD l.fresh)
    outcome :: drain verify schedule (i + 1) queue (workers.setIfInBounds (schedule i) worker)

/-- The outcome of every function of a queue. There are no more workers than functions. -/
def run (config : Config) (schedule : Schedule) (queue : List Source) : List (Except Stop α) :=
  l.drain config.verify schedule 0 queue
    (Array.replicate (min config.workers queue.length) l.fresh)

end Lowering

/-! ### Lowered modules -/

/-- The outcome of one function. -/
structure FuncResult (α : Type) where
  /-- The name of the function. -/
  name : String
  /-- What it was lowered to, or why it was not. -/
  outcome : Except Error α

/-- A lowered module. -/
structure ModuleResult (α : Type) where
  /-- The name of the module. -/
  name : String
  /-- The outcome of every defined function, in the order of the module. -/
  functions : List (FuncResult α)

namespace ModuleResult

variable {α : Type}

/-- The first function with a name. -/
def find? (m : ModuleResult α) (name : String) : Option (FuncResult α) :=
  m.functions.find? (·.name == name)

/-- The errors of the functions that failed. -/
def failures (m : ModuleResult α) : List Error :=
  m.functions.filterMap fun f =>
    match f.outcome with
    | .ok _ => none
    | .error e => some e

/-- The text of all failures together. -/
def failureText (m : ModuleResult α) : String :=
  String.intercalate "; " (m.failures.map Error.message)

end ModuleResult

/-- The functions of a module that have a body. -/
def Module.defined (m : Module) : List Source :=
  (m.funcs.toList.filter (!·.isDeclaration)).map (⟨m.types, ·⟩)

/-- The result of one function. A fault spoils the whole module. -/
def FuncResult.ofOutcome {α : Type} (src : Source) :
    Except Stop α → Except Stop (FuncResult α)
  | .ok a => .ok ⟨src.func.name, .ok a⟩
  | .error (.error e) => .ok ⟨src.func.name, .error e⟩
  | .error (.fault f) => .error (.fault f)

/-- Lowers every defined function of a module. -/
def lowerModule {σ α : Type} (l : Lowering σ α) (config : Config) (m : Module) :
    Except Stop (ModuleResult α) := do
  let outcomes := l.run config (.inTurn config.workers) m.defined
  let functions ← (m.defined.zip outcomes).mapM fun (src, o) => FuncResult.ofOutcome src o
  return ⟨m.name, functions⟩

/-! ### Engines -/

/-- An engine with the modules that it has compiled. -/
structure Engine where
  /-- The settings. -/
  config : Config := {}
  /-- The compiled modules; no two have the same name. -/
  modules : List (ModuleResult X86.Lowered) := []

namespace Engine

/-- The compiled module with a name. -/
def find? (e : Engine) (name : String) : Option (ModuleResult X86.Lowered) :=
  e.modules.find? (·.name == name)

/-- The number of modules that are kept. -/
def count (e : Engine) : Nat := e.modules.length

/-- Forgets the module with a name. -/
def erase (e : Engine) (name : String) : Engine :=
  { e with modules := e.modules.filter (·.name != name) }

/-- Keeps a module instead of the one with the same name. -/
def insert (e : Engine) (m : ModuleResult X86.Lowered) : Engine :=
  { e.erase m.name with modules := m :: (e.erase m.name).modules }

/-- Compiles a module and keeps the result. Nothing is kept of work that was cancelled. -/
def compile (m : Module) (canceled : Bool) : EStateM Stop Engine (ModuleResult X86.Lowered) := do
  if canceled then throw (.ofCause .canceled)
  let e ← get
  let r ← lowerModule (Lowering.direct e.config.limit) e.config m
  set (e.insert r)
  return r

/-- Builds the graphs of a module. -/
def buildGraphs (e : Engine) (m : Module) (canceled : Bool) :
    Except Stop (ModuleResult (Graph X86.Opcode)) := do
  if canceled then throw (.ofCause .canceled)
  lowerModule (Lowering.graph e.config.limit) e.config m

end Engine

end Codegen
