import Codegen.Llvm.Module
import Codegen.Llvm.Token

/-!
# Readers of tokens

A reader takes tokens from the front of a list, or fails. Beside the tokens it keeps what a text
mentions without making it part of the module, so that it can be looked up at the end.

## Main definitions

* `Llvm.Mentions`: what a text mentions and what it defines besides a module.
* `Llvm.Parse`: a reader of tokens.
* `Llvm.next?`, `Llvm.require`, `Llvm.accept`, `Llvm.expect`: readers of one token.
* `Llvm.many`, `Llvm.commas`: readers of lists.
-/

namespace Codegen.Llvm

/-- What a text mentions and what it defines besides a module. -/
structure Mentions where
  /-- Types that are only mentioned. -/
  types : List TypeExpr := []
  /-- Constants that are only mentioned. -/
  consts : List Const := []
  /-- The numbers of notes that are used. -/
  notes : List Nat := []
  /-- The numbers of notes that are defined. -/
  noteDefs : List Nat := []
  /-- The names of lists of notes that are defined. -/
  noteLists : List String := []
  /-- The groups of sections that are used. -/
  comdats : List Name := []
  /-- The groups of sections that are defined. -/
  comdatDefs : List Name := []
  /-- The groups of attributes that are defined. -/
  groupDefs : List Nat := []
  /-- Blocks that are mentioned, each after its function. -/
  blocks : List (Name × Name) := []
  /-- Whether a type is not well formed. -/
  hasBadType : Bool := false
  /-- Whether a part that is no type is not well formed. -/
  hasBadPart : Bool := false
deriving Repr

/-- The tokens that are left, with what was mentioned before them. -/
structure ParseState where
  /-- The tokens. -/
  tokens : List Token
  /-- The number of the next function or global variable without a name. -/
  nextGlobal : Nat := 0
  /-- What was mentioned. -/
  mentions : Mentions := {}
deriving Repr

/-- A reader of tokens, which can fail. -/
abbrev Parse := StateT ParseState Option

/-! ### One token -/

/-- The next token, which stays. -/
def peek : Parse (Option Token) := do return (← get).tokens.head?

/-- The token after the next one, which stays. -/
def peekSecond : Parse (Option Token) := do return ((← get).tokens.drop 1).head?

/-- Drops the next token. -/
def skip : Parse Unit := modify fun s => { s with tokens := s.tokens.drop 1 }

/-- Reads the next token as something, if it is one. -/
def next? {α : Type} (f : Token → Option α) : Parse (Option α) := do
  match (← peek).bind f with
  | some a =>
    skip
    return some a
  | none => return none

/-- Reads the next token as something, which it has to be. -/
def require {α : Type} (f : Token → Option α) : Parse α := do
  match ← next? f with
  | some a => return a
  | none => failure

/-- Reads a token if it is the next one. -/
def accept (t : Token) : Parse Bool := do
  return (← next? fun u => if u = t then some () else none).isSome

/-- Reads a token that has to be the next one. -/
def expect (t : Token) : Parse Unit := require fun u => if u = t then some () else none

/-- Reads a mark if it is the next token. -/
def acceptMark (c : Char) : Parse Bool := accept (.mark c)

/-- Reads a mark that has to be the next token. -/
def expectMark (c : Char) : Parse Unit := expect (.mark c)

/-- Reads a word if it is the next token. -/
def acceptWord (w : String) : Parse Bool := accept (.word w)

/-- Reads a word that has to be the next token. -/
def expectWord (w : String) : Parse Unit := expect (.word w)

/-- Reads a comma if a token of some kind follows it. -/
def acceptCommaBefore (isNext : Token → Bool) : Parse Bool := do
  match ← peek, ← peekSecond with
  | some (.mark ','), some t =>
    if isNext t then skip
    return isNext t
  | _, _ => return false

/-- A word of a list, if it is the next token. -/
def wordOf? (ws : List String) : Parse (Option String) :=
  next? fun
    | .word w => if ws.contains w then some w else none
    | _ => none

/-- A word of a list, which has to be the next token. -/
def wordOf (ws : List String) : Parse String := do
  match ← wordOf? ws with
  | some w => return w
  | none => failure

/-- Reads a word of a list if it is the next token. -/
def acceptWordOf (ws : List String) : Parse Unit := do
  let _ ← wordOf? ws

/-- The name of a value, a block or a type, if it is the next token. -/
def var? : Parse (Option Name) :=
  next? fun
    | .var n => some n
    | _ => none

/-- The name of a value, a block or a type. -/
def parseVar : Parse Name :=
  require fun
    | .var n => some n
    | _ => none

/-- The name of a function or of a global variable. -/
def parseGlobalName : Parse Name :=
  require fun
    | .global n => some n
    | _ => none

/-- A text in quotes. -/
def parseString : Parse (List UInt8) :=
  require fun
    | .string raw => some (unescape raw)
    | _ => none

/-! ### Mentions -/

/-- Changes what is mentioned. -/
def mention (f : Mentions → Mentions) : Parse Unit :=
  modify fun s => { s with mentions := f s.mentions }

/-- Mentions a type. -/
def mentionType (t : TypeExpr) : Parse Unit := mention fun m => { m with types := t :: m.types }

/-- Mentions a constant. -/
def mentionConst (c : Const) : Parse Unit := mention fun m => { m with consts := c :: m.consts }

/-- Mentions a note. -/
def mentionNote (n : Nat) : Parse Unit := mention fun m => { m with notes := n :: m.notes }

/-- Mentions a group of sections. -/
def mentionComdat (n : Name) : Parse Unit := mention fun m => { m with comdats := n :: m.comdats }

/-- Mentions a block of a function. -/
def mentionBlock (f b : Name) : Parse Unit :=
  mention fun m => { m with blocks := (f, b) :: m.blocks }

/-- Mentions that a type is not well formed. -/
def mentionBadType : Parse Unit := mention fun m => { m with hasBadType := true }

/-- Mentions that a part is not well formed. -/
def mentionBadPart : Parse Unit := mention fun m => { m with hasBadPart := true }

/-- Reads something, and tells whether a part of it that is no type is not well formed. -/
def watched {α : Type} (p : Parse α) : Parse (α × Bool) := do
  let before := (← get).mentions.hasBadPart
  mention fun m => { m with hasBadPart := false }
  let a ← p
  let isBad := (← get).mentions.hasBadPart
  mention fun m => { m with hasBadPart := before }
  return (a, isBad)

/-! ### Numbers -/

/-- An integer, if it is the next token. Hexadecimal digits with a sign count as none. -/
def integer? : Parse (Option (Option Int)) :=
  next? fun
    | .int v => some (some v)
    | .hexInt isSigned bits => some (if isSigned then none else some bits)
    | _ => none

/-- An integer that is the next token; none if hexadecimal digits have a sign. -/
def parseInteger : Parse (Option Int) := do
  match ← integer? with
  | some v => return v
  | none => failure

/-- Whether an integer has 64 bits and no sign. -/
def isWord64 (v : Int) : Bool := 0 ≤ v && v < 18446744073709551616

/-- A number of 64 bits without a sign. Other numbers can stand there too, but are not well
formed. -/
def parseNat : Parse Nat := do
  match (← parseInteger).filter isWord64 with
  | some v => return v.toNat
  | none =>
    mentionBadPart
    return 0

/-- A number of 64 bits without a sign as a part of a type. -/
def parseSize : Parse Nat := do
  match (← parseInteger).filter isWord64 with
  | some v => return v.toNat
  | none =>
    mentionBadType
    return 0

/-! ### Lists -/

/-- Reads things as long as there are some, at most as many as given. -/
def many {α : Type} (p : Parse (Option α)) : Nat → Parse (List α)
  | 0 => failure
  | n + 1 => do
    match ← p with
    | none => return []
    | some a => return a :: (← many p n)

/-- Reads things with commas between them, at least one and at most as many as given. -/
def commas {α : Type} (p : Parse α) : Nat → Parse (List α)
  | 0 => failure
  | n + 1 => do
    let a ← p
    if ← acceptMark ',' then return a :: (← commas p n)
    return [a]

/-- Reads things with commas between them up to a mark that closes them, at most as many as
given. -/
def commasUpTo {α : Type} (close : Char) (p : Parse α) (n : Nat) : Parse (List α) := do
  if ← acceptMark close then return []
  let as ← commas p n
  expectMark close
  return as

/-- Whether a token is the name of a note. -/
def isNoteName : Token → Bool
  | .noteName _ => true
  | _ => false

/-- Reads things with a comma in front of each, at most as many as given. A comma before the name of
a note does not count. -/
def afterCommas {α : Type} (p : Parse α) : Nat → Parse (List α)
  | 0 => failure
  | n + 1 => do
    if ← acceptCommaBefore (!isNoteName ·) then
      let a ← p
      return a :: (← afterCommas p n)
    return []

/-- Drops words of a list, at most as many as given. -/
def skipWords (ws : List String) (n : Nat) : Parse Unit := do
  let _ ← many (wordOf? ws) n

/-- Words of a list, at most as many as given. -/
def wordsOf (ws : List String) (n : Nat) : Parse (List String) := many (wordOf? ws) n

/-- Reads something in parentheses. -/
def inParens {α : Type} (p : Parse α) : Parse α := do
  expectMark '('
  let a ← p
  expectMark ')'
  return a

/-- Reads something in parentheses if a parenthesis is next. -/
def inParens? {α : Type} (p : Parse α) : Parse (Option α) := do
  if ← acceptMark '(' then
    let a ← p
    expectMark ')'
    return some a
  return none

/-- The address space that is next; zero if there is none. -/
def parseAddrSpace : Parse Nat := do
  if ← acceptWord "addrspace" then inParens parseNat else return 0

/-- The number of a calling convention, or its word, if it is next. -/
def skipConvention : Parse Unit := do
  if (← wordOf? conventionWords) = some "cc" then
    let _ ← parseNat

end Codegen.Llvm
