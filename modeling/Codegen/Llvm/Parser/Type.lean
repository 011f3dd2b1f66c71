import Codegen.Llvm.Parser.Basic

/-!
# Reading types and attributes

## Main definitions

* `Llvm.parseType`: a type; `Llvm.parseParams`: the parameters of a function.
* `Llvm.paramAttr?`, `Llvm.returnAttr?`, `Llvm.funcAttr?`: attributes, which are dropped.
-/

namespace Codegen.Llvm

/-- The words of other types without parts. -/
def specialWords : List String := ["x86_mmx", "label", "metadata", "token"]

/-- The word of a type of floating-point numbers of which there are none. -/
def emptyWord : String := "bfloat"

/-- The type that a word stands for. -/
def wordType? (w : String) : Option TypeExpr :=
  if w = "void" then some .void
  else if specialWords.contains w then some (.special w)
  else if w = emptyWord then some (.float .half)
  else (FloatKind.named? w).map .float

/-- The type that a word stands for, which has to stand for one. -/
def parseWordType (w : String) : Parse TypeExpr := do
  match wordType? w with
  | some t =>
    if w = emptyWord then mentionBadType
    return t
  | none => failure

/-- A text, maybe with a value, if it is next. -/
def textAttr? : Parse (Option Unit) := do
  match ← peek with
  | some (.string _) =>
    skip
    if ← acceptMark '=' then
      let _ ← parseString
    return some ()
  | _ => return none

/-- An alignment after its word. -/
def parseAlignment : Parse Nat := do
  match ← inParens? parseNat with
  | some n => return n
  | none => parseNat

/-! ### Types -/

mutual

/-- A type. -/
def parseType : Nat → Parse TypeExpr
  | 0 => failure
  | n + 1 => do parseTypeSuffix n (← parseBaseType n)

/-- A type without stars and parameters at its end. -/
def parseBaseType : Nat → Parse TypeExpr
  | 0 => failure
  | n + 1 => do
    match ← require some with
    | .intType bits =>
      if !isWord64 bits then mentionBadType
      return .int bits
    | .var name => return .named name.ofType
    | .word w => parseWordType w
    | .mark '[' =>
      let length ← parseSize
      expectWord "x"
      let elem ← parseType n
      expectMark ']'
      return .array length elem
    | .mark '\x7b' => return .struct false (← commasUpTo '\x7d' (parseType n) n)
    | .mark '<' =>
      if ← acceptMark '\x7b' then
        let fields ← commasUpTo '\x7d' (parseType n) n
        expectMark '>'
        return .struct true fields
      let scalable ← acceptWord "vscale"
      if scalable then expectWord "x"
      let length ← parseSize
      expectWord "x"
      let elem ← parseType n
      expectMark '>'
      return .vector scalable length elem
    | _ => failure

/-- The stars, address spaces and parameters at the end of a type. -/
def parseTypeSuffix : Nat → TypeExpr → Parse TypeExpr
  | 0, _ => failure
  | n + 1, t => do
    if ← acceptMark '*' then parseTypeSuffix n (.pointer t 0)
    else if ← acceptWord "addrspace" then
      let space ← inParens parseSize
      expectMark '*'
      parseTypeSuffix n (.pointer t space)
    else if ← acceptMark '(' then
      let (params, variadic) ← parseParams n
      parseTypeSuffix n (.function t (params.map (·.type)) variadic)
    else return t

/-- Parameters, each a type and maybe a name, up to the closing parenthesis. -/
def parseParams : Nat → Parse (List Param × Bool)
  | 0 => failure
  | n + 1 => do
    if ← acceptMark ')' then return ([], false)
    parseParamsFrom n

/-- Parameters of which there is one at least, or the mark for more arguments. -/
def parseParamsFrom : Nat → Parse (List Param × Bool)
  | 0 => failure
  | n + 1 => do
    if ← acceptWord "..." then
      expectMark ')'
      return ([], true)
    let t ← parseType n
    let _ ← many (paramAttr? n) n
    let param : Param := ⟨t, (← var?).getD .blank⟩
    if ← acceptMark ',' then
      let (params, variadic) ← parseParamsFrom n
      return (param :: params, variadic)
    expectMark ')'
    return ([param], false)

/-- An attribute of a parameter, if it is next. -/
def paramAttr? : Nat → Parse (Option Unit)
  | 0 => failure
  | n + 1 => do
    if (← textAttr?).isSome then return some ()
    match ← wordOf? ("align" :: "alignstack" :: paramAttrWords ++ longAttrWords) with
    | none => return none
    | some w =>
      if w = "align" then
        let _ ← parseAlignment
      else if ["alignstack", "dereferenceable", "dereferenceable_or_null"].contains w then
        let _ ← inParens parseNat
      else if w = "byval" then
        if let some t ← inParens? (parseType n) then mentionType t
      else if ["sret", "inalloca", "byref", "elementtype", "preallocated"].contains w then
        mentionType (← inParens (parseType n))
      else if !paramAttrWords.contains w then failure
      return some ()

end

/-- A type that values can have. -/
def parseFirstClass (n : Nat) : Parse TypeExpr := do
  let t ← parseType n
  if t.isFirstClass then return t else failure

/-! ### Attributes -/

/-- An attribute of a result, if it is next. -/
def returnAttr? : Parse (Option Unit) := do
  let sizes := ["dereferenceable", "dereferenceable_or_null"]
  match ← wordOf? (sizes ++ returnAttrWords) with
  | none => return none
  | some w =>
    if sizes.contains w then
      let _ ← inParens parseNat
    return some ()

/-- A number, maybe with another one behind it. -/
def parseNats : Parse Unit := do
  let _ ← parseNat
  if ← acceptMark ',' then
    let _ ← parseNat

/-- An attribute of a function that is a word with something behind it, if it is next. -/
def longFuncAttr? (n : Nat) : Parse (Option Unit) := do
  match ← peek, ← peekSecond with
  | some (.word w), some (.mark '=') =>
    if w = "align" ∨ w = "alignstack" then
      skip
      skip
      let _ ← parseNat
      return some ()
    return none
  | some (.word w), some (.mark '(') =>
    if w = "alignstack" then
      skip
      let _ ← inParens parseNat
      return some ()
    else if w = "allocsize" ∨ w = "vscale_range" then
      skip
      inParens parseNats
      return some ()
    else if w = "preallocated" then
      skip
      mentionType (← inParens (parseType n))
      return some ()
    return none
  | some (.word "vscale_range"), _ =>
    skip
    mentionBadPart
    return some ()
  | _, _ => return none

/-- An attribute of a function, if it is next. -/
def funcAttr? (n : Nat) : Parse (Option Unit) := do
  if (← textAttr?).isSome then return some ()
  if (← wordOf? funcAttrWords).isSome then return some ()
  let group ← next? fun
    | .attrGroup _ => some ()
    | _ => none
  if group.isSome then return some ()
  longFuncAttr? n

/-- Drops attributes of parameters; tells whether there were some. -/
def skipParamAttrs (n : Nat) : Parse Bool := do return !(← many (paramAttr? n) n).isEmpty

/-- Drops attributes of results. -/
def skipReturnAttrs (n : Nat) : Parse Unit := do
  let _ ← many returnAttr? n

/-- Drops attributes of functions. -/
def skipFuncAttrs (n : Nat) : Parse Unit := do
  let _ ← many (funcAttr? n) n

end Codegen.Llvm
