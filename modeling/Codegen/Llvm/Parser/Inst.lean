import Codegen.Llvm.Parser.Note

/-!
# Reading instructions

An instruction that is read has the names and the constants of the text. A result without a name has
a blank one, as if the number zero were written.

## Main definitions

* `Llvm.parseInstOp`: the operation of an instruction.
* `Llvm.parseTerminator`: the end of a block.
* `Llvm.block?`: a block.
-/

namespace Codegen.Llvm

/-! ### Memory -/

/-- The words that order operations on the memory. -/
def orderingWords : List String :=
  ["unordered", "monotonic", "acquire", "release", "acq_rel", "seq_cst"]

/-- Drops the scope of an operation on the memory, if it is next. -/
def skipScope : Parse Unit := do
  if ← acceptWord "syncscope" then
    let _ ← inParens parseString

/-- Drops the scope of an operation on the memory, and how it is ordered. -/
def skipOrdering : Parse Unit := do
  skipScope
  let _ ← wordOf orderingWords

/-- The alignment at the end of an instruction; zero if there is none. -/
def parseAlign : Parse Nat := do
  if ← acceptCommaBefore (· == .word "align") then
    skip
    parseAlignment
  else return 0

/-- Whether a token can follow the comma behind the type of a piece of the stack and not start an
operand. -/
def endsCount : Token → Bool
  | .word w => w == "align" || w == "addrspace"
  | t => isNoteName t

/-- What follows the type of a piece of the stack: the number of elements, the alignment and the
address space, in this order. -/
def parseAllocaFields (elem : TypeExpr) (n : Nat) : Parse InstOp := do
  let count ← if ← acceptCommaBefore (!endsCount ·) then some <$> parseTyped n else pure none
  let align ← parseAlign
  let space ← if ← acceptCommaBefore (· == .word "addrspace") then parseAddrSpace else pure 0
  return .alloca elem count align space

/-- What follows the operands of a load or a store. -/
def skipAccess (isAtomic : Bool) : Parse Unit := do
  if isAtomic then skipOrdering
  let _ ← parseAlign

/-- The operations that change a place of the memory in one step. -/
def exchangeWords : List String :=
  ["add", "and", "fadd", "fsub", "max", "min", "nand", "or", "sub", "umax", "umin", "xchg", "xor"]

/-- An operation on the memory after its word. -/
def parseMemory (w : String) (n : Nat) : Parse InstOp := do
  match w with
  | "alloca" =>
    let _ ← acceptWord "inalloca"
    let _ ← acceptWord "swifterror"
    parseAllocaFields (← parseType n) n
  | "load" =>
    let isAtomic ← acceptWord "atomic"
    let _ ← acceptWord "volatile"
    let t ← parseType n
    expectMark ','
    let addr ← parseTyped n
    skipAccess isAtomic
    return .load t addr
  | "cmpxchg" =>
    let _ ← acceptWord "weak"
    let _ ← acceptWord "volatile"
    let operands ← parseTypeds n 3
    skipOrdering
    let _ ← wordOf orderingWords
    let _ ← parseAlign
    let old := (operands.map (·.type)).getLastD .void
    return .other "InstCmpXchg" (some (.plain (.struct false [old, .int 1]))) [] operands
  | "atomicrmw" =>
    let _ ← acceptWord "volatile"
    let _ ← wordOf exchangeWords
    let addr ← parseTyped n
    expectMark ','
    let x ← parseTyped n
    skipAccess true
    return .other "InstAtomicRMW" (some (.pointee addr.type)) [] [addr, x]
  | "getelementptr" =>
    let _ ← acceptWord "inbounds"
    let elem ← parseType n
    expectMark ','
    let base ← parseTyped n
    return .getElementPtr elem base.type base (← afterCommas (parseTyped n) n)
  | _ => failure

/-! ### Calls -/

/-- An argument of a call. -/
def parseArg (n : Nat) : Parse Operand := do
  let t ← parseFirstClass n
  if t.isConcrete then
    let isAttributed ← skipParamAttrs n
    let x ← parseOperand t n
    return if isAttributed then .attributed x else x
  parseNote n

/-- Arguments of a call, of which there is one at least, or the mark for more of them; at most as
many as given. -/
def parseArgsFrom (n : Nat) : Nat → Parse (List Operand)
  | 0 => failure
  | k + 1 => do
    if ← acceptWord "..." then
      expectMark ')'
      return []
    let x ← parseArg n
    if ← acceptMark ',' then return x :: (← parseArgsFrom n k)
    expectMark ')'
    return [x]

/-- The arguments of a call, up to the closing parenthesis. -/
def parseArgs (n : Nat) : Parse (List Operand) := do
  if ← acceptMark ')' then return []
  parseArgsFrom n n

/-- Operands under a name that a call hands on. -/
def parseBundle (n : Nat) : Parse (List Operand) := do
  let _ ← parseString
  expectMark '('
  commasUpTo ')' (parseTyped n) n

/-- What a call names. -/
structure CallParts where
  /-- The type in front of the function. -/
  type : TypeExpr
  /-- The function. -/
  callee : Operand
  /-- The arguments. -/
  args : List Operand
  /-- The operands that are handed on. -/
  mentioned : List Operand

/-- A call from its calling convention on. -/
def parseCallParts (n : Nat) : Parse CallParts := do
  skipConvention
  skipReturnAttrs n
  let _ ← parseAddrSpace
  let t ← parseType n
  let callee ← parseOperand .missing n
  expectMark '('
  let args ← parseArgs n
  skipFuncAttrs n
  let bundles ← if ← acceptMark '[' then commas (parseBundle n) n <* expectMark ']' else pure []
  return ⟨t, callee, args, bundles.flatten⟩

/-- A call after its word. -/
def parseCall (n : Nat) : Parse InstOp := do
  skipWords floatFlags n
  let c ← parseCallParts n
  return .call c.type c.callee c.args c.mentioned

/-! ### Other operations -/

/-- A value that comes into a phi, with its block. -/
def parseIncoming (t : TypeExpr) (n : Nat) : Parse (Operand × Name) := do
  expectMark '['
  let x ← parseOperand t n
  expectMark ','
  let b ← parseVar
  expectMark ']'
  return (x, b)

/-- A conversion after its word. -/
def parseConversion (w : String) (n : Nat) : Parse InstOp := do
  let x ← parseTyped n
  expectWord "to"
  let t ← parseType n
  match w with
  | "sext" => return .sext x t
  | "zext" => return .zext x t
  | _ =>
    match conversionKinds.lookup w with
    | some kind => return .other kind (some (.plain t)) [t] [x]
    | none => failure

/-- An operation on two operands after its word. -/
def parseBinary (w : String) (n : Nat) : Parse InstOp := do
  let _ ← parseIntFlags w n
  if w.startsWith "f" then skipWords floatFlags n
  let (t, x, y) ← parsePair n
  match BinaryOp.named? w with
  | some op => return .binary op t x y
  | none =>
    match binaryKinds.lookup w with
    | some kind => return .pair kind (.plain t) x y
    | none => failure

/-- The numbers that select a part of a value. -/
def parseSelectors (n : Nat) : Parse (List Nat) := do
  expectMark ','
  let first ← parseNat
  return first :: (← afterCommas parseNat n)

/-- A clause of a place where an unwinding lands, if it is next. -/
def clause? (n : Nat) : Parse (Option Operand) := do
  match ← wordOf? ["catch", "filter"] with
  | none => return none
  | some _ => return some (← parseTyped n)

/-- An argument of a pad. -/
def parsePadArg (n : Nat) : Parse Operand := do
  let t ← parseFirstClass n
  if t.isConcrete then parseOperand t n else parseNote n

/-- The arguments of a pad. -/
def parsePadArgs (n : Nat) : Parse (List Operand) := do
  expectMark '['
  commasUpTo ']' (parsePadArg n) n

/-- The pad in which something stands, if it stands in one. -/
def parseParentPad : Parse (List Operand) := do
  if ← acceptWord "none" then return []
  return [.var .token (← parseVar)]

/-- An operation on vectors, structs and arrays after its word. -/
def parsePart (w : String) (n : Nat) : Parse InstOp := do
  match w with
  | "extractelement" =>
    let xs ← parseTypeds n 2
    let rule := (xs.map (TypeRule.element ·.type)).head?
    return .other "InstExtractElement" rule [] xs
  | "insertelement" =>
    let xs ← parseTypeds n 3
    return .other "InstInsertElement" (xs.map (TypeRule.vector ·.type)).head? [] xs
  | "shufflevector" =>
    let xs ← parseTypeds n 3
    let rule := xs.head?.map fun x => .shuffled x.type ((xs.map (·.type)).getLastD .void)
    return .other "InstShuffleVector" rule [] xs
  | "extractvalue" =>
    let x ← parseTyped n
    let path ← parseSelectors n
    return .other "InstExtractValue" (some (.part x.type path)) [] [x]
  | "insertvalue" =>
    let xs ← parseTypeds n 2
    let _ ← parseSelectors n
    return .other "InstInsertValue" (xs.map (TypeRule.plain ·.type)).head? [] xs
  | _ => failure

/-- An operation on pads and on lists of arguments after its word. -/
def parsePad (w : String) (n : Nat) : Parse InstOp := do
  match w with
  | "va_arg" =>
    let x ← parseTyped n
    expectMark ','
    let t ← parseType n
    return .other "InstVAArg" (some (.plain t)) [t] [x]
  | "landingpad" =>
    let t ← parseType n
    let _ ← acceptWord "cleanup"
    return .other "InstLandingPad" (some (.plain t)) [t] (← many (clause? n) n)
  | "catchpad" =>
    expectWord "within"
    let parent ← parseVar
    let args ← parsePadArgs n
    return .other "InstCatchPad" (some (.plain .token)) [] (.var .token parent :: args)
  | "cleanuppad" =>
    expectWord "within"
    let parent ← parseParentPad
    return .other "InstCleanupPad" (some (.plain .token)) [] (parent ++ (← parsePadArgs n))
  | _ => failure

/-- An operation whose kind hangs on its operands after its word. -/
def parseChoice (w : String) (n : Nat) : Parse InstOp := do
  match w with
  | "icmp" =>
    let p ← parsePredicate
    let (t, x, y) ← parsePair n
    return .icmp (.known p) t x y
  | "fcmp" =>
    skipWords floatFlags n
    let _ ← wordOf floatPredicates
    let (t, x, y) ← parsePair n
    return .pair "InstFCmp" (.comparedFloat t) x y
  | "phi" =>
    skipWords floatFlags n
    let t ← parseType n
    let first ← parseIncoming t n
    return .phi t (first :: (← afterCommas (parseIncoming t n) n))
  | "select" =>
    skipWords floatFlags n
    let xs ← parseTypeds n 3
    return .other "InstSelect" ((xs.drop 1).map (TypeRule.plain ·.type)).head? [] xs
  | "freeze" =>
    let x ← parseTyped n
    return .other "InstFreeze" (some (.plain x.type)) [] [x]
  | "fneg" =>
    skipWords floatFlags n
    let x ← parseTyped n
    return .other "InstFNeg" (some (.plain x.type)) [] [x]
  | "call" => parseCall n
  | _ =>
    if ["tail", "musttail", "notail"].contains w then
      expectWord "call"
      parseCall n
    else failure

/-- An operation with a result after its word. -/
def parseInstOp (w : String) (n : Nat) : Parse InstOp :=
  if conversionWords.contains w then parseConversion w n
  else if binaryWords.contains w then parseBinary w n
  else if ["alloca", "load", "cmpxchg", "atomicrmw", "getelementptr"].contains w then
    parseMemory w n
  else if ["extractelement", "insertelement", "shufflevector", "extractvalue",
      "insertvalue"].contains w then parsePart w n
  else if ["va_arg", "landingpad", "catchpad", "cleanuppad"].contains w then parsePad w n
  else parseChoice w n

/-- An instruction without a name after its word. -/
def parseInst (w : String) (n : Nat) : Parse Inst := do
  match w with
  | "store" =>
    let isAtomic ← acceptWord "atomic"
    let _ ← acceptWord "volatile"
    let v ← parseTyped n
    expectMark ','
    let addr ← parseTyped n
    skipAccess isAtomic
    return ⟨none, .store v addr⟩
  | "fence" =>
    skipOrdering
    return ⟨none, .other "InstFence" none [] []⟩
  | _ => return ⟨some .blank, ← parseInstOp w n⟩

/-! ### Terminators and blocks -/

/-- A case of a switch, if it is next. -/
def switchCase? (n : Nat) : Parse (Option (Operand × Name)) := do
  if ← acceptMark ']' then return none
  let x ← parseTypedConst n
  expectMark ','
  return some (.const x, ← parseLabel)

/-- Where an unwinding goes on; it can leave the function. -/
def parseUnwind : Parse (List Name) := do
  expectWord "unwind"
  if ← acceptWord "to" then
    expectWord "caller"
    return []
  return [← parseLabel]

/-- A terminator that can have a result after its word. -/
def parseValueTerminator (result : Name) (w : String) (n : Nat) : Parse Terminator := do
  match w with
  | "invoke" =>
    let c ← parseCallParts n
    expectWord "to"
    let normal ← parseLabel
    expectWord "unwind"
    let unwind ← parseLabel
    return .invoke "TermInvoke" result c.type c.callee (c.args ++ c.mentioned) [normal, unwind]
  | "callbr" =>
    let c ← parseCallParts n
    expectWord "to"
    let normal ← parseLabel
    expectMark '['
    let others ← commasUpTo ']' parseLabel n
    return .invoke "TermCallBr" result c.type c.callee (c.args ++ c.mentioned) (normal :: others)
  | "catchswitch" =>
    expectWord "within"
    let parent ← parseParentPad
    expectMark '['
    let handlers ← commas parseLabel n
    expectMark ']'
    let unwind ← parseUnwind
    return .other "TermCatchSwitch" (some (result, .plain .token)) parent (handlers ++ unwind)
  | _ => failure

/-- A terminator after its word. -/
def parseTerminator (w : String) (n : Nat) : Parse Terminator := do
  match w with
  | "ret" =>
    let t ← parseType n
    if t.isVoid then return .ret none
    if !t.isConcrete then failure
    return .ret (some (← parseOperand t n))
  | "br" =>
    if ← acceptWord "label" then return .br (.block (← parseVar))
    let bits ← require fun
      | .intType bits => some bits
      | _ => none
    if !isWord64 bits then mentionBadType
    let c ← parseOperand (.int bits) n
    expectMark ','
    let t ← parseLabel
    expectMark ','
    return .condBr c t (← parseLabel)
  | "switch" =>
    let x ← parseTyped n
    expectMark ','
    let d ← parseLabel
    expectMark '['
    let cases ← many (switchCase? n) n
    return .other "TermSwitch" none (x :: cases.map (·.1)) (d :: cases.map (·.2))
  | "indirectbr" =>
    let x ← parseTyped n
    expectMark ','
    expectMark '['
    return .other "TermIndirectBr" none [x] (← commasUpTo ']' parseLabel n)
  | "resume" => return .other "TermResume" none [← parseTyped n] []
  | "catchret" =>
    expectWord "from"
    let x ← parseOperand .token n
    expectWord "to"
    return .other "TermCatchRet" none [x] [← parseLabel]
  | "cleanupret" =>
    expectWord "from"
    let x ← parseOperand .token n
    return .other "TermCleanupRet" none [x] (← parseUnwind)
  | "unreachable" => return .other "TermUnreachable" none [] []
  | _ => parseValueTerminator .blank w n

/-- The words of terminators that can have a result. -/
def valueTerminatorWords : List String := ["invoke", "callbr", "catchswitch"]

/-- The words of terminators. -/
def terminatorWords : List String :=
  ["ret", "br", "switch", "indirectbr", "resume", "catchret", "cleanupret", "unreachable"] ++
    valueTerminatorWords

/-- An instruction or a terminator that stands behind a name. -/
def parseNamed (name : Name) (n : Nat) : Parse (Inst ⊕ Terminator) := do
  expectMark '='
  let w ← require fun
    | .word w => some w
    | _ => none
  if valueTerminatorWords.contains w then return .inr (← parseValueTerminator name w n)
  return .inl ⟨some name, ← parseInstOp w n⟩

/-- An instruction or a terminator, with the notes that are attached to it. -/
def parseStep (n : Nat) : Parse (Inst ⊕ Terminator) := do
  let step ← match ← require some with
    | .var name => parseNamed name n
    | .word w =>
      if terminatorWords.contains w then .inr <$> parseTerminator w n else .inl <$> parseInst w n
    | _ => failure
  skipAttachments n
  return step

/-- The instructions of a block and its terminator, at most as many as given, and the place of the
first one that is not well formed. -/
def parseInsts (n : Nat) : Nat → Parse (List Inst × Terminator × Option Nat)
  | 0 => failure
  | k + 1 => do
    let (step, isBad) ← watched (parseStep n)
    match step with
    | .inr term => return ([], term, if isBad then some 0 else none)
    | .inl inst =>
      let (insts, term, flaw) ← parseInsts n k
      return (inst :: insts, term, if isBad then some 0 else flaw.map (· + 1))

/-- Whether a token ends the blocks of a function. -/
def endsBlocks (t : Token) : Bool := t == .mark '\x7d' || t == .word "uselistorder"

/-- A block, if the blocks of the function do not end here. -/
def block? (n : Nat) : Parse (Option Block) := do
  if (← peek).any endsBlocks then return none
  let label ← next? fun
    | .label name => some name
    | _ => none
  let (insts, term, flaw) ← parseInsts n n
  return some { name := label.getD .blank, insts, term := some term, flaw }

end Codegen.Llvm
