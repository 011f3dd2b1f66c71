import Codegen.Engine
import Codegen.Flag
import Codegen.Llvm.Import
import Codegen.Llvm.Resolve.Module

/-!
# The command line

The command lowers files of LLVM IR one after the other, and shows the machine instructions or the
graph of every function. A function that fails is shown with its error, and the others go on; a file
that cannot be read or imported ends the command.

## Main definitions

* `Command`: what the command is asked to do; `Command.ofArgs` reads it from the arguments.
* `Command.lowerText`: what is shown for one file.
* `Command.run`: what the command shows and how it exits.
-/

namespace Codegen

/-- What the command is asked to do. -/
structure Command where
  /-- Whether graphs are shown instead of machine instructions. -/
  graphs : Bool := false
  /-- The number of workers; the default if it is not positive. -/
  workers : Int := 0
  /-- The limit of instructions, or of nodes, of a function. -/
  limit : Int := 0
  /-- Whether functions are checked first. -/
  verify : Bool := false
  /-- The files. -/
  files : List String := []
deriving Repr

/-! ### Arguments -/

/-- The flags. -/
inductive Setting where
  | graphs
  | workers
  | limit
  | verify
  /-- Topics of a log, which is not kept. -/
  | topics
deriving DecidableEq, Repr

namespace Setting

/-- The flag with a name. -/
def named? (name : String) : Option Setting :=
  match name with
  | "dag" => some graphs
  | "workers" => some workers
  | "max-instrs" => some limit
  | "verify" => some verify
  | "v" => some topics
  | _ => none

/-- Whether a flag without a value is switched on. -/
def isSwitch : Setting → Bool
  | graphs => true
  | verify => true
  | _ => false

end Setting

/-- Why arguments are refused. -/
inductive UsageError where
  /-- Only an explanation is asked for. -/
  | help
  | malformed (arg : String)
  | unknownFlag (name : String)
  | missingValue (name : String)
  | invalidValue (name value : String)
  | noFiles
deriving DecidableEq, Repr

namespace UsageError

/-- How the flags and files are given. -/
def usage : String :=
  "usage: [-dag] [-workers n] [-max-instrs n] [-verify] [-v topics] file1.ll [file2.ll ...]"

/-- The text of a refusal. -/
def message : UsageError → String
  | help => usage
  | malformed arg => s!"bad flag syntax: {arg}"
  | unknownFlag name => s!"flag provided but not defined: -{name}"
  | missingValue name => s!"flag needs an argument: -{name}"
  | invalidValue name value => s!"invalid value {value} for flag -{name}: parse error"
  | noFiles => usage

/-- How the command exits. -/
def exitCode : UsageError → Nat
  | help => 0
  | noFiles => 1
  | _ => 2

end UsageError

namespace Command

variable (c : Command)

/-- The command with a setting of a value. -/
def set (s : Setting) (value : String) : Option Command :=
  match s with
  | .graphs => (Flag.boolValue? value).map fun graphs => { c with graphs }
  | .workers => (Flag.intValue? value).map fun workers => { c with workers }
  | .limit => (Flag.intValue? value).map fun limit => { c with limit }
  | .verify => (Flag.boolValue? value).map fun verify => { c with verify }
  | .topics => some c

/-- Reads flags up to the first argument that is none; the files follow. A flag that is no switch
takes the next argument as its value, if it holds none. -/
def readArgs (c : Command) : List String → Except UsageError Command
  | [] => .ok c
  | arg :: rest =>
    match Flag.Arg.ofString arg with
    | .plain => .ok { c with files := arg :: rest }
    | .separator => .ok { c with files := rest }
    | .malformed => .error (.malformed arg)
    | .flag name value =>
      match Setting.named? name, value, rest with
      | none, _, _ => .error (if name = "help" ∨ name = "h" then .help else .unknownFlag name)
      | some s, some v, rest =>
        match c.set s v with
        | some c => readArgs c rest
        | none => .error (.invalidValue name v)
      | some s, none, rest =>
        if s.isSwitch then
          match c.set s "true" with
          | some c => readArgs c rest
          | none => .error (.invalidValue name "true")
        else
          match rest with
          | [] => .error (.missingValue name)
          | v :: rest =>
            match c.set s v with
            | some c => readArgs c rest
            | none => .error (.invalidValue name v)

/-- The command that arguments ask for. There has to be a file. -/
def ofArgs (args : List String) : Except UsageError Command := do
  let c ← readArgs {} args
  if c.files.isEmpty then throw .noFiles
  return c

/-! ### Files -/

/-- The settings for lowering. -/
def config : Config :=
  let config := (({} : Config).withLimit c.limit).withVerify c.verify
  if 0 < c.workers then config.withWorkers c.workers else config

/-- What is shown for a function. -/
def funcText {α : Type} (text : α → Except Fault String) (f : FuncResult α) :
    Except Fault String := do
  match f.outcome with
  | .ok a => return f.name ++ ":" ++ (← text a) ++ "\n"
  | .error e => return "; " ++ f.name ++ ": " ++ e.message ++ "\n"

/-- What is shown for a module, and whether no function failed. -/
def moduleText {α : Type} (text : α → Except Fault String) (m : ModuleResult α) :
    Except Stop (String × Bool) := do
  return (String.join (← (m.functions.mapM (funcText text) : Except Fault _)), m.failures.isEmpty)

/-- What is shown for an imported module, and whether no function failed. -/
def lowerImported (m : Module) : Except Stop (String × Bool) := do
  let config := c.config
  if c.graphs then
    moduleText (·.text) (← lowerModule (Lowering.graph config.limit) config m)
  else
    moduleText (fun f => .ok f.text) (← lowerModule (Lowering.direct config.limit) config m)

/-- Why a file is not lowered. -/
inductive FileProblem where
  | missing
  | unreadable
  | stopped (why : Stop)

/-- What is shown for a file, and whether no function failed. The module has the name of the
file. -/
def lowerText (path : String) : Option String → Except FileProblem (String × Bool)
  | none => .error .missing
  | some text =>
    match Llvm.readModule text with
    | .error .malformed => .error .unreadable
    | .error (.fault f) => .error (.stopped (.fault f))
    | .ok source =>
      match Llvm.importModule source path >>= c.lowerImported with
      | .ok r => .ok r
      | .error e => .error (.stopped e)

namespace FileProblem

/-- How the command exits. A fault is told apart from an error. -/
def exitCode : FileProblem → Nat
  | stopped (.fault _) => 2
  | _ => 1

/-- The text of a problem. -/
def message (path : String) : FileProblem → String
  | missing => s!"{path}: no such file"
  | unreadable => s!"{path}: parse error"
  | stopped (.error e) => e.message
  | stopped (.fault f) => f.message.getD "fault"

end FileProblem

/-! ### Runs -/

/-- What a command shows, and how it exits. -/
structure Outcome where
  /-- The exit code. -/
  exitCode : Nat := 0
  /-- What is shown. -/
  output : String := ""
  /-- What is shown as a complaint. -/
  complaint : String := ""
deriving DecidableEq, Repr

/-- Lowers files that are read one after the other. -/
def lowerFiles {μ : Type → Type} [Monad μ] (read : String → μ (Option String)) :
    List String → μ Outcome
  | [] => return {}
  | path :: rest => do
    match c.lowerText path (← read path) with
    | .error p => return { exitCode := p.exitCode, complaint := p.message path }
    | .ok (text, succeeded) =>
      let after ← lowerFiles read rest
      return { after with
        exitCode := if succeeded then after.exitCode else max 1 after.exitCode
        output := text ++ after.output }

/-- Runs the command with arguments. -/
def run {μ : Type → Type} [Monad μ] (read : String → μ (Option String)) (args : List String) :
    μ Outcome := do
  match ofArgs args with
  | .error e => return { exitCode := e.exitCode, complaint := e.message }
  | .ok c => c.lowerFiles read c.files

end Command

end Codegen
