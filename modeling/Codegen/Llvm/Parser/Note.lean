import Codegen.Llvm.Parser.Const

/-!
# Reading notes

Of a note only the text is kept. The other notes and the constants in it are mentioned, so that they
can be looked up at the end.

## Main definitions

* `Llvm.parseNote`: a note.
* `Llvm.attachment?`, `Llvm.skipAttachments`: notes that are attached to something.
-/

namespace Codegen.Llvm

/-! ### Fields -/

/-- The text of a field. -/
structure FieldText where
  /-- The name. -/
  name : String
  /-- The value. -/
  value : String
deriving DecidableEq, Repr

namespace FieldText

/-- A field as it stands in a note. -/
def text (f : FieldText) : String := f.name ++ ": " ++ f.value

end FieldText

/-- Whether an integer has 64 bits, of which one is the sign. -/
def isSigned64 (v : Int) : Bool := -9223372036854775808 ≤ v && v < 9223372036854775808

/-- An integer that fits. -/
def parseFieldInteger (fits : Int → Bool) : Parse String := do
  match (← parseInteger).filter fits with
  | some v => return toString v
  | none =>
    mentionBadPart
    return ""

/-- A word of a family. A word that stands for nothing is not well formed. -/
def parseFamilyWord (family : WordFamily) : Parse String := do
  let w ← require fun
    | .word w => if family.has w then some w else none
    | _ => none
  if !family.means w then mentionBadPart
  return w

/-- A word of a family, or a number. -/
def parseFamily (family : WordFamily) : Parse String := do
  match ← peek with
  | some (.word _) => parseFamilyWord family
  | _ => return toString (← parseNat)

/-- Words of a family or numbers, put together; at most as many as given. -/
def parseFlags (family : WordFamily) : Nat → Parse (List String)
  | 0 => failure
  | n + 1 => do
    let w ← parseFamily family
    if ← acceptMark '|' then return w :: (← parseFlags family n)
    return [w]

/-- A step of an expression: an operator, an encoding or a number. -/
def parseExprStep : Parse String := do
  match ← peek with
  | some (.word w) =>
    parseFamilyWord (if WordFamily.encodings.has w then .encodings else .operators)
  | _ => return toString (← parseNat)

/-- A value of a list of values. -/
def parseListed (n : Nat) : Parse String := do
  if let .const c ← parseTyped n then mentionConst c
  return ""

/-- Whether the value that fields give has 64 bits, of which one is the sign unless they say that it
has none. -/
def fitsWord (fields : List FieldText) : Bool :=
  let fits := if fields.contains ⟨"isUnsigned", "true"⟩ then isWord64 else isSigned64
  fields.all fun f => f.name != "value" || f.value.toInt?.all fits

/-! ### Notes -/

mutual

/-- A note that is a number, a list, or has a kind and parts. -/
def parseNoteNode : Nat → Parse String
  | 0 => failure
  | n + 1 => do
    match ← require some with
    | .noteNumber k =>
      mentionNote k
      return s!"!{k}"
    | .noteName w =>
      expectMark '('
      return "!" ++ w ++ "(" ++ String.intercalate ", " (← parseNoteParts w n) ++ ")"
    | .mark '!' => parseNoteList n
    | _ => failure

/-- The parts of a note with a kind, up to the closing parenthesis. -/
def parseNoteParts (w : String) : Nat → Parse (List String)
  | 0 => failure
  | n + 1 => do
    if w = expressionKind then commasUpTo ')' parseExprStep n
    else if w = valuesKind then commasUpTo ')' (parseListed n) n
    else
      match noteKinds.lookup w with
      | none => failure
      | some kinds =>
        let fields ← commasUpTo ')' (parseField kinds n) n
        if kinds.contains ("value", .wideInteger) && !fitsWord fields then mentionBadPart
        return fields.map (·.text)

/-- A field of a note. -/
def parseField (kinds : List (String × FieldKind)) : Nat → Parse FieldText
  | 0 => failure
  | n + 1 => do
    let name ← require fun
      | .field name => some name
      | _ => none
    match kinds.lookup name with
    | none => failure
    | some kind => return ⟨name, ← parseFieldValue kind n⟩

/-- The value of a field. -/
def parseFieldValue (kind : FieldKind) : Nat → Parse String
  | 0 => failure
  | n + 1 => do
    match kind with
    | .text => return quoted (← parseString)
    | .truth => wordOf ["true", "false"]
    | .natural => return toString (← parseNat)
    | .integer => parseFieldInteger isSigned64
    | .wideInteger => parseFieldInteger fun _ => true
    | .note => parseNoteMember n
    | .integerOrNote =>
      match ← peek with
      | some (.int _) => parseFieldInteger isSigned64
      | some (.hexInt _ _) => parseFieldInteger isSigned64
      | _ => parseNoteMember n
    | .word family => parseFamily family
    | .onlyWord family => parseFamilyWord family
    | .flags family => return String.intercalate " | " (← parseFlags family n)
    | .notes => parseNoteMembers n

/-- The members of a note that is a list. -/
def parseNoteList : Nat → Parse String
  | 0 => failure
  | n + 1 => do return "!" ++ (← parseNoteMembers n)

/-- Members of a note in braces. -/
def parseNoteMembers : Nat → Parse String
  | 0 => failure
  | n + 1 => do
    expectMark '\x7b'
    let members ← commasUpTo '\x7d' (parseNoteMember n) n
    return "\x7b" ++ String.intercalate ", " members ++ "\x7d"

/-- A member of a note, which can be missing. One with a value of a function is not well formed. -/
def parseNoteMember : Nat → Parse String
  | 0 => failure
  | n + 1 => do
    if ← acceptWord "null" then return "null"
    match ← parseNote n with
    | .note s => return s
    | .noted (.const c) =>
      mentionConst c
      return ""
    | _ =>
      mentionBadPart
      return ""

/-- A note: a text, a number, a list, a note with a kind, or a value. -/
def parseNote : Nat → Parse Operand
  | 0 => failure
  | n + 1 => do
    match ← peek, ← peekSecond with
    | some (.mark '!'), some (.string raw) =>
      skip
      skip
      return .note ("!" ++ quoted (unescape raw))
    | some (.mark '!'), _ => return .note (← parseNoteNode n)
    | some (.noteNumber _), _ => return .note (← parseNoteNode n)
    | some (.noteName _), _ => return .note (← parseNoteNode n)
    | _, _ => return .noted (← parseTyped n)

end

/-! ### Attachments -/

/-- A note that is attached to something, if it is next. -/
def attachment? (n : Nat) : Parse (Option Unit) := do
  match ← peek with
  | some (.noteName w) =>
    if isNoteKind w then failure
    skip
    let _ ← parseNoteNode n
    return some ()
  | _ => return none

/-- Notes that are attached to something, each after a comma. -/
def skipAttachments (n : Nat) : Parse Unit := do
  let next : Parse (Option Unit) := do
    if ← acceptCommaBefore isNoteName then attachment? n else return none
  let _ ← many next n

end Codegen.Llvm
