/-!
# Notes with fields

A note on a program can have a kind and fields, which describe the source that the program was made
from. A field has a name and a value. Some values are words of a family, each of which stands for a
number; such a number can be given itself too.

## Main definitions

* `Llvm.WordFamily`: a family of words.
* `Llvm.FieldKind`: what the value of a field can be.
* `Llvm.noteKinds`: the kinds of notes, with their fields.
-/

namespace Codegen.Llvm

/-! ### Families of words -/

/-- A family of words that start in the same way. -/
structure WordFamily where
  /-- How the words start. -/
  start : String
  /-- How the words go on that stand for something. -/
  rest : List String
deriving DecidableEq, Repr

namespace WordFamily

/-- What a note describes. -/
def tags : WordFamily where
  start := "DW_TAG_"
  rest :=
    ["array_type", "class_type", "entry_point", "enumeration_type", "formal_parameter",
      "imported_declaration", "label", "lexical_block", "member", "pointer_type",
      "reference_type", "compile_unit", "string_type", "structure_type", "subroutine_type",
      "typedef", "union_type", "unspecified_parameters", "variant", "common_block",
      "common_inclusion", "inheritance", "inlined_subroutine", "module", "ptr_to_member_type",
      "set_type", "subrange_type", "with_stmt", "access_declaration", "base_type",
      "catch_block", "const_type", "constant", "enumerator", "file_type", "friend", "namelist",
      "namelist_item", "packed_type", "subprogram", "template_type_parameter",
      "template_value_parameter", "thrown_type", "try_block", "variant_part", "variable",
      "volatile_type", "dwarf_procedure", "restrict_type", "interface_type", "namespace",
      "imported_module", "unspecified_type", "partial_unit", "imported_unit", "condition",
      "shared_type", "type_unit", "rvalue_reference_type", "template_alias", "coarray_type",
      "generic_subrange", "dynamic_type", "atomic_type", "call_site", "call_site_parameter",
      "skeleton_unit", "immutable_type", "MIPS_loop", "format_label", "function_template",
      "class_template", "GNU_template_template_param", "GNU_template_parameter_pack",
      "GNU_formal_parameter_pack", "GNU_call_site", "GNU_call_site_parameter", "APPLE_property",
      "BORLAND_property", "BORLAND_Delphi_string", "BORLAND_Delphi_dynamic_array",
      "BORLAND_Delphi_set", "BORLAND_Delphi_variant"]

/-- How a value of a basic type is encoded. -/
def encodings : WordFamily where
  start := "DW_ATE_"
  rest :=
    ["address", "boolean", "complex_float", "float", "signed", "signed_char", "unsigned",
      "unsigned_char", "imaginary_float", "packed_decimal", "numeric_string", "edited",
      "signed_fixed", "unsigned_fixed", "decimal_float", "UTF", "UCS", "ASCII"]

/-- The language of a source. -/
def languages : WordFamily where
  start := "DW_LANG_"
  rest :=
    ["C89", "C", "Ada83", "C_plus_plus", "Cobol74", "Cobol85", "Fortran77", "Fortran90",
      "Pascal83", "Modula2", "Java", "C99", "Ada95", "Fortran95", "PLI", "ObjC",
      "ObjC_plus_plus", "UPC", "D", "Python", "OpenCL", "Go", "Modula3", "Haskell",
      "C_plus_plus_03", "C_plus_plus_11", "OCaml", "Rust", "C11", "Swift", "Julia", "Dylan",
      "C_plus_plus_14", "Fortran03", "Fortran08", "RenderScript", "BLISS", "Mips_Assembler",
      "GOOGLE_RenderScript", "BORLAND_Delphi"]

/-- The operators of an expression that tells where a value is. -/
def operators : WordFamily where
  start := "DW_OP_"
  rest :=
    ["addr", "deref", "const1u", "const1s", "const2u", "const2s", "const4u", "const4s",
      "const8u", "const8s", "constu", "consts", "dup", "drop", "over", "pick", "swap", "rot",
      "xderef", "abs", "and", "div", "minus", "mod", "mul", "neg", "not", "or", "plus",
      "plus_uconst", "shl", "shr", "shra", "xor", "bra", "eq", "ge", "gt", "le", "lt", "ne",
      "skip", "regx", "fbreg", "bregx", "piece", "deref_size", "xderef_size", "nop",
      "push_object_address", "call2", "call4", "call_ref", "form_tls_address", "call_frame_cfa",
      "bit_piece", "implicit_value", "stack_value", "implicit_pointer", "addrx", "constx",
      "entry_value", "const_type", "regval_type", "deref_type", "xderef_type", "convert",
      "reinterpret", "GNU_push_tls_address", "GNU_entry_value", "GNU_addr_index",
      "GNU_const_index", "LLVM_fragment", "LLVM_convert", "LLVM_tag_offset", "LLVM_entry_value",
      "LLVM_implicit_pointer", "LLVM_arg"] ++
      (List.range 32).flatMap fun n => [s!"lit{n}", s!"reg{n}", s!"breg{n}"]

/-- The flags of a type, a variable or a function. -/
def flags : WordFamily where
  start := "DIFlag"
  rest :=
    ["Zero", "Private", "Protected", "Public", "FwdDecl", "AppleBlock", "ReservedBit4",
      "Virtual", "Artificial", "Explicit", "Prototyped", "ObjcClassComplete", "ObjectPointer",
      "Vector", "StaticMember", "LValueReference", "RValueReference", "Reserved",
      "SingleInheritance", "MultipleInheritance", "VirtualInheritance", "IntroducedVirtual",
      "BitField", "NoReturn", "TypePassByValue", "TypePassByReference", "EnumClass", "Thunk",
      "NonTrivial", "BigEndian", "LittleEndian", "AllCallsDescribed", "ExportSymbols",
      "IndirectVirtualBase", "Accessibility", "PtrToMemberRep"]

/-- The flags of a function. -/
def functionFlags : WordFamily where
  start := "DISPFlag"
  rest :=
    ["Zero", "Virtual", "PureVirtual", "LocalToUnit", "Definition", "Optimized", "Pure",
      "Elemental", "Recursive", "MainSubprogram", "Deleted", "ObjCDirect"]

/-- How a function is called. -/
def conventions : WordFamily where
  start := "DW_CC_"
  rest :=
    ["normal", "program", "nocall", "pass_by_reference", "pass_by_value", "GNU_renesas_sh",
      "GNU_borland_fastcall_i386", "BORLAND_safecall", "BORLAND_stdcall", "BORLAND_pascal",
      "BORLAND_msfastcall", "BORLAND_msreturn", "BORLAND_thiscall", "BORLAND_fastcall",
      "LLVM_vectorcall", "LLVM_Win64", "LLVM_X86_64SysV", "LLVM_AAPCS", "LLVM_AAPCS_VFP",
      "LLVM_IntelOclBicc", "LLVM_SpirFunction", "LLVM_OpenCLKernel", "LLVM_Swift",
      "LLVM_PreserveMost", "LLVM_PreserveAll", "LLVM_X86RegCall", "GDB_IBM_OpenCL"]

/-- Whether a name for a text is defined. -/
def definitions : WordFamily where
  start := "DW_MACINFO_"
  rest :=
    ["define", "undef", "start_file", "end_file", "vendor_ext"]

/-- How a function can be replaced. -/
def virtualities : WordFamily where
  start := "DW_VIRTUALITY_"
  rest :=
    ["none", "virtual", "pure_virtual"]

/-- How the checksum of a file is made. -/
def checksums : WordFamily where
  start := "CSK_"
  rest :=
    ["MD5", "SHA1", "SHA256"]

/-- How much is known of a source. -/
def emissions : WordFamily where
  start := ""
  rest :=
    ["NoDebug", "FullDebug", "LineTablesOnly", "DebugDirectivesOnly"]

/-- How names are looked up. -/
def nameTables : WordFamily where
  start := ""
  rest :=
    ["Default", "GNU", "None"]

/-- All families. -/
def all : List WordFamily :=
  [tags, encodings, languages, operators, flags, functionFlags, conventions, definitions,
    virtualities, checksums, emissions, nameTables]

/-- Whether a word is one of a family, whether it stands for something or not. -/
def has (family : WordFamily) (w : String) : Bool :=
  if family.start.isEmpty then family.rest.contains w else w.startsWith family.start

/-- Whether a word stands for something. -/
def means (family : WordFamily) (w : String) : Bool :=
  family.rest.any fun rest => family.start ++ rest == w

end WordFamily

/-! ### Kinds of notes -/

/-- What the value of a field can be. -/
inductive FieldKind where
  | text
  | truth
  | natural
  | integer
  /-- A number that can be too large for a sign. -/
  | wideInteger
  /-- A note, which can be missing. -/
  | note
  | integerOrNote
  /-- A word of a family, or a number. -/
  | word (family : WordFamily)
  /-- A word of a family. -/
  | onlyWord (family : WordFamily)
  /-- Words of a family or numbers, put together. -/
  | flags (family : WordFamily)
  /-- Notes in braces. -/
  | notes
deriving DecidableEq, Repr

/-- The fields that are notes, under their names. -/
def noteFields (names : List String) : List (String × FieldKind) := names.map (·, .note)

/-- The fields that are texts, under their names. -/
def textFields (names : List String) : List (String × FieldKind) := names.map (·, .text)

/-- The fields that are true or false, under their names. -/
def truthFields (names : List String) : List (String × FieldKind) := names.map (·, .truth)

/-- The fields that are numbers without a sign, under their names. -/
def naturalFields (names : List String) : List (String × FieldKind) := names.map (·, .natural)

/-- The fields that are numbers, under their names. -/
def integerFields (names : List String) : List (String × FieldKind) := names.map (·, .integer)

/-- The field that tells what a note describes. -/
def tagField : String × FieldKind := ("tag", .word .tags)

/-- The field of the flags of a type, a variable or a function. -/
def flagsField : String × FieldKind := ("flags", .flags .flags)

/-- The field of the encoding of a basic type. -/
def encodingField : String × FieldKind := ("encoding", .word .encodings)

/-- The bounds of a range. -/
def boundFields : List (String × FieldKind) :=
  ["count", "lowerBound", "upperBound", "stride"].map (·, .integerOrNote)

/-- The kinds of notes on types, with their fields. -/
def typeNoteKinds : List (String × List (String × FieldKind)) :=
  [("DIBasicType",
      [tagField, flagsField, encodingField] ++ textFields ["name"] ++
        naturalFields ["size", "align"]),
    ("DIStringType",
      [tagField, encodingField] ++ textFields ["name"] ++ naturalFields ["size", "align"] ++
        noteFields ["stringLength", "stringLengthExpression", "stringLocationExpression"]),
    ("DICompositeType",
      [tagField, flagsField, ("runtimeLang", .word .languages)] ++
        textFields ["name", "identifier"] ++ integerFields ["line"] ++
        naturalFields ["size", "align", "offset"] ++
        noteFields ["scope", "file", "baseType", "elements", "vtableHolder", "templateParams",
          "discriminator", "dataLocation", "associated", "allocated", "annotations"] ++
        [("rank", .integerOrNote)]),
    ("DIDerivedType",
      [tagField, flagsField] ++ textFields ["name"] ++ integerFields ["line"] ++
        naturalFields ["size", "align", "offset", "dwarfAddressSpace"] ++
        noteFields ["scope", "file", "baseType", "extraData", "annotations"]),
    ("DISubroutineType",
      [flagsField, ("cc", .word .conventions)] ++ noteFields ["types"]),
    ("DIEnumerator",
      ("value", .wideInteger) :: textFields ["name"] ++ truthFields ["isUnsigned"]),
    ("DISubrange", boundFields),
    ("DIGenericSubrange", boundFields),
    ("DITemplateTypeParameter",
      textFields ["name"] ++ noteFields ["type"] ++ truthFields ["defaulted"]),
    ("DITemplateValueParameter",
      tagField :: textFields ["name"] ++ noteFields ["type", "value"] ++
        truthFields ["defaulted"]),
    ("DIObjCProperty",
      textFields ["name", "setter", "getter"] ++ integerFields ["line"] ++
        naturalFields ["attributes"] ++ noteFields ["file", "type"])]

/-- The kinds of notes on files and scopes, with their fields. -/
def scopeNoteKinds : List (String × List (String × FieldKind)) :=
  [("DIFile",
      ("checksumkind", .onlyWord .checksums) ::
        textFields ["filename", "directory", "checksum", "source"]),
    ("DICompileUnit",
      [("language", .word .languages), ("emissionKind", .word .emissions),
          ("nameTableKind", .word .nameTables)] ++
        textFields ["producer", "flags", "splitDebugFilename", "sysroot", "sdk"] ++
        truthFields ["isOptimized", "splitDebugInlining", "debugInfoForProfiling",
          "rangesBaseAddress"] ++
        naturalFields ["runtimeVersion", "dwoId"] ++
        noteFields ["file", "enums", "retainedTypes", "globals", "imports", "macros"]),
    ("DISubprogram",
      [flagsField, ("spFlags", .flags .functionFlags), ("virtuality", .word .virtualities)] ++
        textFields ["name", "linkageName"] ++
        truthFields ["isLocal", "isDefinition", "isOptimized"] ++
        integerFields ["line", "scopeLine", "thisAdjustment"] ++ naturalFields ["virtualIndex"] ++
        noteFields ["scope", "file", "type", "containingType", "unit", "templateParams",
          "declaration", "retainedNodes", "thrownTypes", "annotations"]),
    ("DILexicalBlock", integerFields ["line", "column"] ++ noteFields ["scope", "file"]),
    ("DILexicalBlockFile", naturalFields ["discriminator"] ++ noteFields ["scope", "file"]),
    ("DINamespace",
      textFields ["name"] ++ truthFields ["exportSymbols"] ++ noteFields ["scope"]),
    ("DIModule",
      textFields ["name", "configMacros", "includePath", "apinotes"] ++ integerFields ["line"] ++
        truthFields ["isDecl"] ++ noteFields ["scope", "file"]),
    ("DICommonBlock",
      textFields ["name"] ++ integerFields ["line"] ++
        noteFields ["scope", "declaration", "file"])]

/-- The kinds of other notes, with their fields. -/
def otherNoteKinds : List (String × List (String × FieldKind)) :=
  [("DILocation",
      integerFields ["line", "column"] ++ noteFields ["scope", "inlinedAt"] ++
        truthFields ["isImplicitCode"]),
    ("DIGlobalVariable",
      textFields ["name", "linkageName"] ++ integerFields ["line"] ++
        truthFields ["isLocal", "isDefinition"] ++ naturalFields ["align"] ++
        noteFields ["scope", "file", "type", "templateParams", "declaration", "annotations"]),
    ("DIGlobalVariableExpression", noteFields ["var", "expr"]),
    ("DILocalVariable",
      flagsField :: textFields ["name"] ++ integerFields ["line"] ++
        naturalFields ["arg", "align"] ++ noteFields ["scope", "file", "type", "annotations"]),
    ("DILabel", textFields ["name"] ++ integerFields ["line"] ++ noteFields ["scope", "file"]),
    ("DIImportedEntity",
      tagField :: textFields ["name"] ++ integerFields ["line"] ++
        noteFields ["scope", "entity", "file", "elements"]),
    ("DIMacro",
      ("type", .word .definitions) :: textFields ["name", "value"] ++ integerFields ["line"]),
    ("DIMacroFile",
      ("type", .word .definitions) :: integerFields ["line"] ++ noteFields ["file", "nodes"]),
    ("GenericDINode", [tagField, ("operands", .notes)] ++ textFields ["header"])]

/-- The kinds of notes, with their fields. -/
def noteKinds : List (String × List (String × FieldKind)) :=
  typeNoteKinds ++ scopeNoteKinds ++ otherNoteKinds

/-- The kind of notes that are expressions. -/
def expressionKind : String := "DIExpression"

/-- The kind of notes that are lists of values. -/
def valuesKind : String := "DIArgList"

/-- Whether a word is the kind of a note. -/
def isNoteKind (w : String) : Bool :=
  (noteKinds.lookup w).isSome || w == expressionKind || w == valuesKind

/-- Whether a word is the name of a field. -/
def isFieldName (w : String) : Bool := noteKinds.any fun kind => (kind.2.lookup w).isSome

end Codegen.Llvm
