import Codegen.Llvm.Parser.Inst

/-!
# Reading modules

A text is read to a draft: a module with the names and the constants of the text, and what the text
mentions besides. What a name stands for is found out later, in `Codegen.Llvm.Resolve`. Only the
functions and global variables without a name are numbered here, in the order of the text.

## Main definitions

* `Llvm.Draft`: what a text says.
* `Llvm.parseModule`: the draft that a text stands for.
-/

namespace Codegen.Llvm

/-- What a text says: a module whose names are not resolved, and what it mentions besides. -/
structure Draft where
  /-- The module. -/
  module : Module := {}
  /-- What is mentioned. -/
  mentions : Mentions := {}
deriving Repr

/-! ### Functions -/

/-- The words for how something is linked, in the order in which they can follow each other. -/
def linkageOrder : List (List String) :=
  [["private", "internal", "linkonce", "linkonce_odr", "weak", "weak_odr", "appending", "common",
      "available_externally", "external", "extern_weak"],
    ["dso_local", "dso_preemptable"], ["default", "hidden", "protected"],
    ["dllimport", "dllexport"]]

/-- Drops the words for how something is linked; tells whether it is only declared. -/
def skipLinkage : Parse Bool := do
  let words ← linkageOrder.mapM wordOf?
  return words.any fun w => w == some "external" || w == some "extern_weak"

/-- A group of sections after its word, which is named like the thing in it unless another name is
given. -/
def parseComdat (name : Name) : Parse Unit := do
  let given ← inParens? (require fun
    | .comdat n => some n
    | _ => none)
  mentionComdat (given.getD name)

/-- What can follow the parameters of a function, if it is next. -/
def funcField? (name : Name) (n : Nat) : Parse (Option Unit) := do
  if (← funcAttr? n).isSome then return some ()
  match ← wordOf? ["section", "partition", "gc", "comdat", "align", "personality", "prefix",
      "prologue"] with
  | none => return none
  | some w =>
    if w = "comdat" then parseComdat name
    else if w = "align" then
      let _ ← parseAlignment
    else if ["personality", "prefix", "prologue"].contains w then
      mentionConst (← parseTypedConst n)
    else
      let _ ← parseString
    return some ()

/-- The name of a function or of a global variable. Without a name it gets the next number, whatever
number is written. -/
def settleGlobal : Name → Parse Name
  | .text bytes => return .text bytes
  | .number _ => do
    let s ← get
    set { s with nextGlobal := s.nextGlobal + 1 }
    return .number s.nextGlobal

/-- The words for whether an address has to be told apart from others. -/
def addrWords : List String := ["unnamed_addr", "local_unnamed_addr"]

/-- A function up to its body. -/
def parseFuncHeader (n : Nat) : Parse Func := do
  let _ ← skipLinkage
  skipConvention
  skipReturnAttrs n
  let result ← parseType n
  let name ← settleGlobal (← parseGlobalName)
  expectMark '('
  let (params, variadic) ← parseParams n
  acceptWordOf addrWords
  let addrSpace ← parseAddrSpace
  let _ ← many (funcField? name n) n
  return { name, result, params, variadic, addrSpace, blocks := [] }

/-- Numbers in braces. -/
def parseOrder (n : Nat) : Parse Unit := do
  expectMark ','
  expectMark '\x7b'
  let _ ← commas parseNat n
  expectMark '\x7d'

/-- An operand whose uses are put in order, with their order, after the word for it. -/
def parseUseOrder (n : Nat) : Parse Operand := do
  let x ← parseTyped n
  parseOrder n
  return x

/-- An operand whose uses are put in order, if it is next. -/
def useOrder? (n : Nat) : Parse (Option Operand) := do
  if ← acceptWord "uselistorder" then return some (← parseUseOrder n)
  return none

/-- A block of a function whose uses are put in order, with their order, after the word for it. -/
def parseBlockOrder (n : Nat) : Parse Unit := do
  let f ← parseGlobalName
  expectMark ','
  let b ← parseVar
  parseOrder n
  mentionBlock f b

/-- A function with its body. A body has one block at least. -/
def parseFunc (n : Nat) : Parse Func := do
  let f ← parseFuncHeader n
  let _ ← many (attachment? n) n
  expectMark '\x7b'
  let blocks ← many (block? n) n
  if blocks.isEmpty then failure
  let ordered ← many (useOrder? n) n
  expectMark '\x7d'
  return { f with blocks, ordered }

/-- A function that is only declared. -/
def parseDeclared (n : Nat) : Parse Func := do
  let _ ← many (attachment? n) n
  parseFuncHeader n

/-! ### Global variables -/

/-- What can follow a global variable, if it is next. -/
def globalField? (name : Name) : Parse (Option Unit) := do
  if ← acceptCommaBefore (!isNoteName ·) then
    match ← wordOf ["align", "section", "partition", "comdat"] with
    | "align" =>
      let _ ← parseAlignment
    | "comdat" => parseComdat name
    | _ =>
      let _ ← parseString
    return some ()
  return none

/-- Drops the word for a variable that every thread has for itself, with its model. -/
def skipThreadLocal : Parse Unit := do
  if ← acceptWord "thread_local" then
    let _ ← inParens? (wordOf ["initialexec", "localdynamic", "localexec"])

/-- A global variable from its address space on. One that is only declared has no content. -/
def parseVariable (isDeclared : Bool) (name : Name) (n : Nat) : Parse Global := do
  let addrSpace ← parseAddrSpace
  let _ ← acceptWord "externally_initialized"
  let _ ← wordOf ["global", "constant"]
  let type ← parseType n
  let init ← if isDeclared then pure none else some <$> parseConst type n
  let _ ← many (globalField? name) n
  skipAttachments n
  skipFuncAttrs n
  return { name, type, addrSpace, init }

/-- What another name stands for: a constant with its type, or an operation on constants. -/
def parseAliased (n : Nat) : Parse Const := do
  match ← wordOf? ["bitcast", "getelementptr", "addrspacecast", "inttoptr"] with
  | some w => parseExpr .missing w n
  | none => parseTypedConst n

/-- Another name for something global, after its word. -/
def parseAlias (name : Name) (n : Nat) : Parse Global := do
  let type ← parseType n
  expectMark ','
  let init ← parseAliased n
  let partition : Parse (Option Unit) := do
    if ← acceptMark ',' then
      expectWord "partition"
      let _ ← parseString
      return some ()
    return none
  let _ ← many partition n
  return { name, type, addrSpace := 0, init, isAlias := true }

/-- A global variable or another name after the name. -/
def parseGlobal (name : Name) (n : Nat) : Parse Global := do
  expectMark '='
  let name ← settleGlobal name
  let isDeclared ← skipLinkage
  skipThreadLocal
  acceptWordOf addrWords
  if (← wordOf? ["alias", "ifunc"]).isSome then parseAlias name n
  else parseVariable isDeclared name n

/-! ### Entries -/

/-- The definition of a type after its name. -/
def parseTypeDef (n : Nat) : Parse (Option TypeExpr) := do
  expectMark '='
  expectWord "type"
  if ← acceptWord "opaque" then return none
  return some (← parseType n)

/-- A definition of a note after its number. -/
def parseNoteDef (number : Nat) (n : Nat) : Parse Unit := do
  mention fun m => { m with noteDefs := number :: m.noteDefs }
  expectMark '='
  let _ ← acceptWord "distinct"
  match ← peek with
  | some (.noteNumber _) => failure
  | _ =>
    let _ ← parseNoteNode n

/-- A member of a list of notes with a name. -/
def parseNamedMember (n : Nat) : Parse Unit := do
  match ← peek with
  | some (.noteNumber _) =>
    let _ ← parseNoteNode n
  | some (.noteName w) =>
    if w != expressionKind then failure
    let _ ← parseNoteNode n
  | _ => failure

/-- A list of notes with a name, after the name. -/
def parseNamedNote (name : String) (n : Nat) : Parse Unit := do
  if isNoteKind name then failure
  mention fun m => { m with noteLists := name :: m.noteLists }
  expectMark '='
  expectMark '!'
  expectMark '\x7b'
  let _ ← commasUpTo '\x7d' (parseNamedMember n) n

/-- A definition of a group of sections after its name. -/
def parseComdatDef (name : Name) : Parse Unit := do
  mention fun m => { m with comdatDefs := name :: m.comdatDefs }
  expectMark '='
  expectWord "comdat"
  let _ ← wordOf ["any", "exactmatch", "largest", "nodeduplicate", "samesize"]

/-- A definition of a group of attributes after its word. -/
def parseGroupDef (n : Nat) : Parse Unit := do
  let number ← require fun
    | .attrGroup k => some k
    | _ => none
  mention fun m => { m with groupDefs := number :: m.groupDefs }
  expectMark '='
  expectMark '\x7b'
  skipFuncAttrs n
  expectMark '\x7d'

/-- An equals sign and a text. -/
def parseSetting : Parse Unit := do
  expectMark '='
  let _ ← parseString

/-- An entry that is no function, after its word. -/
def parseWordEntry (w : String) (n : Nat) : Parse Unit := do
  match w with
  | "source_filename" => parseSetting
  | "target" =>
    let _ ← wordOf ["datalayout", "triple"]
    parseSetting
  | "module" =>
    expectWord "asm"
    let _ ← parseString
  | "attributes" => parseGroupDef n
  | "uselistorder" =>
    match ← parseUseOrder n with
    | .const c => mentionConst c
    | _ => mentionBadPart
  | "uselistorder_bb" => parseBlockOrder n
  | _ => failure

/-- An entry of a module after its first token. -/
def parseEntry (m : Module) (t : Token) (n : Nat) : Parse Module := do
  match t with
  | .word "define" => return { m with funcs := m.funcs ++ [← parseFunc n] }
  | .word "declare" => return { m with funcs := m.funcs ++ [← parseDeclared n] }
  | .global name => return { m with globals := m.globals ++ [← parseGlobal name n] }
  | .var name => return { m with types := (name.ofType, ← parseTypeDef n) :: m.types }
  | .word w =>
    parseWordEntry w n
    return m
  | .comdat name =>
    parseComdatDef name
    return m
  | .noteName w =>
    parseNamedNote w n
    return m
  | .noteNumber k =>
    parseNoteDef k n
    return m
  | _ => failure

/-- The entries of a module, at most as many as given. -/
def parseEntries (n : Nat) : Nat → Module → Parse Module
  | 0, _ => failure
  | k + 1, m => do
    match ← next? some with
    | none => return m
    | some t => parseEntries n k (← parseEntry m t n)

/-- How many readers can call each other for one token. -/
def readersPerToken : Nat := 8

/-- The draft that a text stands for. No list in it is longer than the list of its tokens, and no
part of it is deeper than some readers for each token. -/
def parseModule (text : String) : Option Draft :=
  let ts := tokens text
  let bound := readersPerToken * (ts.length + 1)
  ((parseEntries bound bound {}).run { tokens := ts }).map fun (module, s) => ⟨module, s.mentions⟩

end Codegen.Llvm
