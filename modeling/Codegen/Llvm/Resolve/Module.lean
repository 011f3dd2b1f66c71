import Codegen.Llvm.Parser.Module
import Codegen.Llvm.Resolve.Func

/-!
# Modules of LLVM IR from their texts

A draft becomes a module if every name that it uses stands for one thing and every constant fits the
type in front of it.

## Main definitions

* `Llvm.Draft.resolve`: the module that a draft stands for.
* `Llvm.readModule`: the module that a text stands for.
-/

namespace Codegen.Llvm

namespace Mentions

variable (s : Mentions)

/-- Checks that nothing is defined twice. -/
def checkDefs : Read Unit :=
  demand (s.noteDefs.Nodup && s.noteLists.Nodup && s.comdatDefs.Nodup && s.groupDefs.Nodup)

/-- Checks that everything that is mentioned exists and is well formed. -/
def check (m : Module) : Read Unit := do
  if s.hasBadPart then illFormed
  demand (s.notes.all s.noteDefs.contains && s.comdats.all s.comdatDefs.contains)
  s.types.forM m.types.checkType
  let _ ← m.resolveConsts s.consts
  s.blocks.forM fun (f, b) => m.checkBlock f b

end Mentions

namespace Module

variable (m : Module)

/-- The names of the functions and of the global variables. -/
def globalNames : List Name := m.globals.map (·.name) ++ m.funcs.map (·.name)

/-- The type in front of what another name stands for. An operation on constants without a type has
the one that its parts make. -/
def aliasedType : Const → Read TypeExpr
  | .expr .missing (.convert _ target) _ => .ok target
  | .expr .missing (.elementPtr _ elem) (base :: indices) => do
    let indices ← indices.mapM fun i => do TypeDefs.Index.ofConst (← m.resolveConst i)
    m.types.address elem base.type indices
  | c => .ok c.type

/-- Checks that another name stands for an address. -/
def checkAlias (g : Global) : Read Unit := do
  if let (true, some c) := (g.isAlias, g.init) then
    let _ ← orIllFormed (m.types.pointee? (← m.aliasedType c))

/-- A global variable whose content is resolved. -/
def resolveGlobal (g : Global) : Read Global := do
  return { g with init := ← g.init.mapM m.resolveConst }

end Module

/-- The module that a draft stands for. -/
def Draft.resolve (d : Draft) : Read Module := do
  let m := d.module
  demand m.globalNames.Nodup
  d.mentions.checkDefs
  m.types.check
  (m.globals.map (·.type) ++ m.funcs.map (·.type)).forM m.types.checkType
  if d.mentions.hasBadType then illFormed
  let m := { m with funcs := ← m.funcs.mapM (·.settle m) }
  d.mentions.check m
  m.globals.forM m.checkAlias
  let globals ← m.globals.mapM m.resolveGlobal
  let funcs ← m.funcs.mapM m.resolveFunc
  return { m with globals, funcs }

/-- The module that a text stands for. -/
def readModule (text : String) : Read Module := do (← orMalformed (parseModule text)).resolve

end Codegen.Llvm
