import Codegen.Llvm.Parser.Type

/-!
# Reading constants and operands

## Main definitions

* `Llvm.parseConst`: a constant of a type.
* `Llvm.parseOperand`: an operand of a type.
-/

namespace Codegen.Llvm

/-! ### Words -/

/-- Constants that are words. -/
def constantWords : List String := ["null", "none", "undef", "poison", "zeroinitializer"]

/-- The words of flags of operations that can overflow. -/
def overflowFlags : List String := ["nuw", "nsw"]

/-- The words of flags of operations on floating-point numbers. -/
def floatFlags : List String :=
  ["nnan", "ninf", "nsz", "arcp", "contract", "afn", "reassoc", "fast"]

/-- The operations on two operands that have no counterpart, with their kinds. -/
def binaryKinds : List (String × String) :=
  [("srem", "InstSRem"), ("urem", "InstURem"), ("fadd", "InstFAdd"), ("fsub", "InstFSub"),
    ("fmul", "InstFMul"), ("fdiv", "InstFDiv"), ("frem", "InstFRem")]

/-- The conversions that have no counterpart, with their kinds. -/
def conversionKinds : List (String × String) :=
  [("trunc", "InstTrunc"), ("fptrunc", "InstFPTrunc"), ("fpext", "InstFPExt"),
    ("fptoui", "InstFPToUI"), ("fptosi", "InstFPToSI"), ("uitofp", "InstUIToFP"),
    ("sitofp", "InstSIToFP"), ("ptrtoint", "InstPtrToInt"), ("inttoptr", "InstIntToPtr"),
    ("bitcast", "InstBitCast"), ("addrspacecast", "InstAddrSpaceCast")]

/-- The words of operations on two operands. -/
def binaryWords : List String := BinaryOp.all.map (·.name) ++ binaryKinds.map (·.1)

/-- The words of conversions. -/
def conversionWords : List String := ["sext", "zext"] ++ conversionKinds.map (·.1)

/-- The predicates of comparisons of floating-point numbers. -/
def floatPredicates : List String :=
  ["false", "oeq", "ogt", "oge", "olt", "ole", "one", "ord", "ueq", "ugt", "uge", "ult", "ule",
    "une", "uno", "true"]

/-- A predicate of comparisons of integers. -/
def parsePredicate : Parse Predicate :=
  require fun
    | .word w => Predicate.named? w
    | _ => none

/-- Whether an operation can overflow. -/
def canOverflow (w : String) : Bool := ["add", "sub", "mul", "shl"].contains w

/-- Whether an operation can leave a remainder or lose bits. -/
def canBeInexact (w : String) : Bool := ["udiv", "sdiv", "lshr", "ashr"].contains w

/-- The flags of an operation on integers. -/
def parseIntFlags (w : String) (n : Nat) : Parse (List String) := do
  if canOverflow w then wordsOf overflowFlags n
  else if canBeInexact w then return (← wordOf? ["exact"]).toList
  else return []

/-! ### Constants -/

mutual

/-- A constant of a type. -/
def parseConst (t : TypeExpr) : Nat → Parse Const
  | 0 => failure
  | n + 1 => do
    match ← require some with
    | .int v => return .int t v
    | .hexInt false v => return .int t v
    | .hexInt true bits => return .signed t bits
    | .float s => return .float t s
    | .global name => return .global t name
    | .mark '[' => return .aggregate t .array (← commasUpTo ']' (parseTypedConst n) n)
    | .mark '\x7b' => return .aggregate t .struct (← commasUpTo '\x7d' (parseTypedConst n) n)
    | .mark '<' =>
      if ← acceptMark '\x7b' then
        let fields ← commasUpTo '\x7d' (parseTypedConst n) n
        expectMark '>'
        return .aggregate t .struct fields
      return .aggregate t .vector (← commas (parseTypedConst n) n <* expectMark '>')
    | .word w => parseWordConst t w n
    | _ => failure

/-- A constant that starts with a word. -/
def parseWordConst (t : TypeExpr) (w : String) : Nat → Parse Const
  | 0 => failure
  | n + 1 => do
    if w = "true" then return .bool t true
    else if w = "false" then return .bool t false
    else if constantWords.contains w then return .word t w
    else if w = "c" then return .chars t (← parseString)
    else if w = "blockaddress" then
      expectMark '('
      let f ← parseGlobalName
      expectMark ','
      let b ← parseVar
      expectMark ')'
      return .blockAddress t f b
    else if w = "dso_local_equivalent" ∨ w = "no_cfi" then return .detour t w (← parseGlobalName)
    else parseExpr t w n

/-- An operation on constants after its word. -/
def parseExpr (t : TypeExpr) (w : String) : Nat → Parse Const
  | 0 => failure
  | n + 1 => do
    if conversionWords.contains w then
      expectMark '('
      let arg ← parseTypedConst n
      expectWord "to"
      let target ← parseType n
      expectMark ')'
      mentionType target
      return .expr t (.convert w target) [arg]
    else if binaryWords.contains w then
      let flags ← parseIntFlags w n
      return .expr t (.binary w flags) (← parseConstArgs 2 n)
    else
      match w with
      | "fneg" => return .expr t .negate (← parseConstArgs 1 n)
      | "icmp" =>
        let p ← parsePredicate
        return .expr t (.icmp p) (← parseConstArgs 2 n)
      | "fcmp" =>
        let p ← wordOf floatPredicates
        return .expr t (.fcmp p) (← parseConstArgs 2 n)
      | "select" => return .expr t .select (← parseConstArgs 3 n)
      | "extractelement" => return .expr t .extractElement (← parseConstArgs 2 n)
      | "insertelement" => return .expr t .insertElement (← parseConstArgs 3 n)
      | "shufflevector" => return .expr t .shuffleVector (← parseConstArgs 3 n)
      | "extractvalue" =>
        expectMark '('
        let arg ← parseTypedConst n
        let path ← parsePath n
        return .expr t (.extractValue path) [arg]
      | "insertvalue" =>
        expectMark '('
        let arg ← parseTypedConst n
        expectMark ','
        let elem ← parseTypedConst n
        let path ← parsePath n
        return .expr t (.insertValue path) [arg, elem]
      | "getelementptr" =>
        let isInbounds ← acceptWord "inbounds"
        expectMark '('
        let elem ← parseType n
        expectMark ','
        let base ← parseTypedConst n
        let indices ← afterCommas (parseIndex n) n
        expectMark ')'
        mentionType elem
        return .expr t (.elementPtr isInbounds elem) (base :: indices)
      | _ => failure

/-- Constants in parentheses, with their types and with commas between them, as many as given. -/
def parseConstArgs (count : Nat) : Nat → Parse (List Const)
  | 0 => failure
  | n + 1 => do
    expectMark '('
    let args ← commas (parseTypedConst n) n
    expectMark ')'
    if args.length = count then return args else failure

/-- The numbers that select a part, each with a comma in front, up to the closing parenthesis. There
can be none. -/
def parsePath : Nat → Parse (List Nat)
  | 0 => failure
  | n + 1 => do
    let path ← afterCommas parseNat n
    expectMark ')'
    return path

/-- An index, which the result may not leave. -/
def parseIndex : Nat → Parse Const
  | 0 => failure
  | n + 1 => do
    let bounds ← acceptWord "inrange"
    let c ← parseTypedConst n
    return if bounds then .inRange c else c

/-- A type and a constant. -/
def parseTypedConst : Nat → Parse Const
  | 0 => failure
  | n + 1 => do
    let t ← parseFirstClass n
    parseConst t n

end

/-! ### Operands -/

/-- A piece of assembly after its word. -/
def parseAssembly (t : TypeExpr) : Parse Operand := do
  let words ← ["sideeffect", "alignstack", "inteldialect", "unwind"].filterMapM fun w => do
    return if ← acceptWord w then some (w ++ " ") else none
  let code ← parseString
  expectMark ','
  let constraints ← parseString
  return .assembly t ("asm " ++ String.join words ++ quoted code ++ ", " ++ quoted constraints)

/-- An operand of a type. -/
def parseOperand (t : TypeExpr) (n : Nat) : Parse Operand := do
  match ← var? with
  | some name => return .var t name
  | none =>
    if ← acceptWord "asm" then parseAssembly t else return .const (← parseConst t n)

/-- A type and an operand. -/
def parseTyped (n : Nat) : Parse Operand := do
  let t ← parseFirstClass n
  parseOperand t n

/-- Operands with their types, with commas between them: as many as given. -/
def parseTypeds (n : Nat) : Nat → Parse (List Operand)
  | 0 => return []
  | 1 => return [← parseTyped n]
  | k + 2 => do
    let x ← parseTyped n
    expectMark ','
    return x :: (← parseTypeds n (k + 1))

/-- Two operands after one type. -/
def parsePair (n : Nat) : Parse (TypeExpr × Operand × Operand) := do
  let t ← parseFirstClass n
  let x ← parseOperand t n
  expectMark ','
  return (t, x, ← parseOperand t n)

/-- The name of a block after the word for it. -/
def parseLabel : Parse Name := do
  expectWord "label"
  parseVar

end Codegen.Llvm
