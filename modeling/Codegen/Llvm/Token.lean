import Codegen.Llvm.Name
import Codegen.Llvm.Note

/-!
# Tokens of LLVM IR

A text is cut into tokens from left to right, each as long as possible. There is no token for words
in general: a word that is no keyword, no type and no number is left out, unless a part of it at the
start is one. A word before a colon is a label, whatever it is otherwise, unless it is the name of a
field of a note. Where no token can start, everything is left out up to the place where it becomes
clear.

## Main definitions

* `Llvm.Token`: a token.
* `Llvm.keywords`: the keywords.
* `Llvm.tokens`: the tokens of a text.
-/

namespace Codegen.Llvm

/-- A token. -/
inductive Token where
  | word (s : String)
  | intType (bits : Nat)
  | int (value : Int)
  /-- An integer by its hexadecimal digits, which can be signed. -/
  | hexInt (isSigned : Bool) (bits : Nat)
  | float (literal : String)
  | string (raw : List Char)
  | global (name : Name)
  | var (name : Name)
  | label (name : Name)
  /-- The name of a field of a note. -/
  | field (name : String)
  | attrGroup (number : Nat)
  | comdat (name : Name)
  | noteName (s : String)
  | noteNumber (number : Nat)
  | mark (c : Char)
deriving DecidableEq, Repr

/-! ### Keywords -/

/-- The words of instructions, and of their flags. -/
def instructionWords : List String :=
  ["fneg", "add", "fadd", "sub", "fsub", "mul", "fmul", "udiv", "sdiv", "fdiv", "urem", "srem",
    "frem", "shl", "lshr", "ashr", "and", "or", "xor", "extractelement", "insertelement",
    "shufflevector", "extractvalue", "insertvalue", "alloca", "load", "store", "fence", "cmpxchg",
    "atomicrmw", "getelementptr", "trunc", "zext", "sext", "fptrunc", "fpext", "fptoui", "fptosi",
    "uitofp", "sitofp", "ptrtoint", "inttoptr", "bitcast", "addrspacecast", "icmp", "fcmp", "phi",
    "select", "freeze", "call", "va_arg", "landingpad", "catchpad", "cleanuppad", "ret", "br",
    "switch", "indirectbr", "invoke", "callbr", "resume", "catchswitch", "catchret", "cleanupret",
    "unreachable", "nuw", "nsw", "exact", "inbounds", "inrange", "volatile", "atomic", "syncscope",
    "unordered", "monotonic", "acquire", "release", "acq_rel", "seq_cst", "tail", "musttail",
    "notail", "to", "label", "nnan", "ninf", "nsz", "arcp", "contract", "afn", "reassoc", "fast",
    "eq", "ne", "sge", "sgt", "sle", "slt", "uge", "ugt", "ule", "ult", "oeq", "oge", "ogt", "ole",
    "olt", "one", "ord", "ueq", "une", "uno", "false", "true", "xchg", "nand", "max", "min", "umax",
    "umin", "cleanup", "catch", "filter", "unwind", "within", "from", "caller",
    "singlethread"]

/-- The words of types and of constants. -/
def typeWords : List String :=
  ["void", "half", "bfloat", "float", "double", "fp128", "x86_fp80", "ppc_fp128", "x86_mmx",
    "metadata", "token", "ptr", "opaque", "type", "vscale", "x", "c", "null", "none", "undef",
    "poison", "zeroinitializer", "blockaddress", "dso_local_equivalent", "no_cfi", "asm",
    "sideeffect", "alignstack", "inteldialect", "..."]

/-- The words that start an entry of a module, and that stand inside one. -/
def entryWords : List String :=
  ["define", "declare", "global", "constant", "source_filename", "target", "datalayout", "triple",
    "attributes", "module", "alias", "ifunc", "comdat", "any", "exactmatch", "largest",
    "nodeduplicate", "samesize", "uselistorder", "uselistorder_bb", "distinct",
    "addrspace", "section", "partition", "gc", "prefix", "prologue", "personality"]

/-- The words that say how a function or a global variable is linked. -/
def linkageWords : List String :=
  ["private", "internal", "linkonce", "linkonce_odr", "weak", "weak_odr", "appending", "common",
    "external", "extern_weak", "available_externally", "dso_local", "dso_preemptable", "default",
    "hidden", "protected", "dllimport", "dllexport", "thread_local", "initialexec", "localdynamic",
    "localexec", "unnamed_addr", "local_unnamed_addr", "externally_initialized"]

/-- The words of calling conventions. -/
def conventionWords : List String :=
  ["ccc", "fastcc", "coldcc", "anyregcc", "preserve_mostcc", "preserve_allcc", "ghccc", "hhvmcc",
    "hhvm_ccc", "swiftcc", "swifttailcc", "tailcc", "cxx_fast_tlscc", "cfguard_checkcc",
    "webkit_jscc", "win64cc", "x86_64_sysvcc", "x86_fastcallcc", "x86_stdcallcc", "x86_thiscallcc",
    "x86_vectorcallcc", "x86_regcallcc", "x86_intrcc", "intel_ocl_bicc", "arm_apcscc",
    "arm_aapcscc", "arm_aapcs_vfpcc", "aarch64_vector_pcs", "aarch64_sve_vector_pcs", "avr_intrcc",
    "avr_signalcc", "msp430_intrcc", "ptx_kernel", "ptx_device", "spir_kernel", "spir_func",
    "amdgpu_vs", "amdgpu_ls", "amdgpu_hs", "amdgpu_es", "amdgpu_gs", "amdgpu_ps", "amdgpu_cs",
    "amdgpu_kernel", "amdgpu_gfx", "cc"]

/-- The attributes of parameters that are a word. -/
def paramAttrWords : List String :=
  ["immarg", "inreg", "nest", "noalias", "nocapture", "nofree", "nonnull", "noundef", "readnone",
    "readonly", "returned", "signext", "swiftasync", "swifterror", "swiftself", "writeonly",
    "zeroext"]

/-- The attributes of results that are a word. -/
def returnAttrWords : List String :=
  ["inreg", "noalias", "nonnull", "noundef", "signext", "zeroext"]

/-- The attributes of functions that are a word. -/
def funcAttrWords : List String :=
  ["alwaysinline", "argmemonly", "builtin", "cold", "convergent",
    "disable_sanitizer_instrumentation", "hot", "inaccessiblemem_or_argmemonly",
    "inaccessiblememonly", "inlinehint", "jumptable", "minsize", "mustprogress", "naked",
    "nobuiltin", "nocallback", "nocf_check", "noduplicate", "nofree",
    "noimplicitfloat", "noinline", "nomerge", "nonlazybind", "noprofile", "norecurse", "noredzone",
    "noreturn", "nosanitize_coverage", "nosync", "nounwind", "null_pointer_is_valid",
    "optforfuzzing", "optnone", "optsize", "readnone", "readonly", "returns_twice", "safestack",
    "sanitize_address", "sanitize_hwaddress", "sanitize_memory", "sanitize_memtag",
    "sanitize_thread", "shadowcallstack", "speculatable", "speculative_load_hardening", "ssp",
    "sspreq", "sspstrong", "strictfp", "uwtable", "willreturn", "writeonly"]

/-- The words of attributes that have something behind them. -/
def longAttrWords : List String :=
  ["align", "byval", "byref", "dereferenceable", "dereferenceable_or_null", "elementtype",
    "inalloca", "preallocated", "sret", "allocsize", "vscale_range"]

/-- The words of a summary of a module, which has no meaning here. -/
def summaryWords : List String :=
  ["path", "hash", "gv", "guid", "name", "summaries", "flags", "blockcount", "linkage",
    "visibility", "notEligibleToImport", "live", "dsoLocal", "canAutoHide", "function", "insts",
    "funcFlags", "readNone", "readOnly", "noRecurse", "returnDoesNotAlias", "noInline",
    "alwaysInline", "noUnwind", "mayThrow", "hasUnknownCall", "mustBeUnreachable", "calls",
    "callee", "hotness", "critical", "relbf", "variable", "vTableFuncs", "virtFunc", "aliasee",
    "refs", "typeIdInfo", "typeTests", "typeTestAssumeVCalls", "typeCheckedLoadVCalls",
    "typeTestAssumeConstVCalls", "typeCheckedLoadConstVCalls", "vFuncId", "offset", "args",
    "typeid", "typeidCompatibleVTable", "summary", "typeTestRes", "kind", "unsat", "byteArray",
    "inline", "single", "allOnes", "sizeM1BitWidth", "alignLog2", "sizeM1", "bitMask",
    "inlineBits", "vcall_visibility", "wpdResolutions", "wpdRes", "indir", "singleImpl",
    "branchFunnel", "singleImplName", "resByArg", "byArg", "uniformRetVal", "uniqueRetVal",
    "virtualConstProp", "info", "byte", "bit", "varFlags", "params", "param"]

/-- The words of families that do not start in the same way. -/
def familyWords : List String :=
  (WordFamily.all.filter (·.start.isEmpty)).flatMap (·.rest)

/-- All keywords. -/
def keywords : List String :=
  instructionWords ++ typeWords ++ entryWords ++ linkageWords ++ conventionWords ++
    paramAttrWords ++ returnAttrWords ++ funcAttrWords ++ longAttrWords ++ summaryWords ++
    familyWords

/-- Whether characters are a keyword. -/
def isKeyword (cs : List Char) : Bool := keywords.contains (String.ofList cs)

/-- The length of the longest keyword at the start of some characters, which has at most `n`
characters. -/
def keywordLength (cs : List Char) : Nat → Nat
  | 0 => 0
  | n + 1 => if isKeyword (cs.take (n + 1)) then n + 1 else keywordLength cs n

/-- The length of a word of a family at the start; zero if there is none. -/
def familyLength (cs : List Char) (family : WordFamily) : Nat :=
  let start := family.start.toList
  if start.isEmpty || cs.take start.length != start then 0
  else
    start.length + ((cs.drop start.length).takeWhile fun c => c.isAlphanum || c == '_').length

/-- The length of the longest word of a family at the start; zero if there is none. -/
def familiesLength (cs : List Char) : Nat :=
  (WordFamily.all.map (familyLength cs)).foldl max 0

/-! ### Numbers -/

/-- The number of decimal digits at the start. -/
def digitCount (cs : List Char) : Nat := (cs.takeWhile Char.isDigit).length

/-- The number of hexadecimal digits at the start. -/
def hexCount (cs : List Char) : Nat := (cs.takeWhile fun c => (hexValue? c).isSome).length

/-- The length of a type of integers at the start; zero if there is none. -/
def intTypeLength : List Char → Nat
  | 'i' :: cs => if digitCount cs = 0 then 0 else digitCount cs + 1
  | _ => 0

/-- The length of a sign. -/
def signLength : List Char → Nat
  | '-' :: _ => 1
  | '+' :: _ => 1
  | _ => 0

/-- The length of an exponent at the start; zero if there is none. -/
def exponentLength : List Char → Nat
  | e :: cs =>
    let n := digitCount (cs.drop (signLength cs))
    if (e == 'e' || e == 'E') && n ≠ 0 then n + signLength cs + 1 else 0
  | [] => 0

/-- The length of a decimal literal with a point at the start; zero if there is none. -/
def decimalLength (cs : List Char) : Nat :=
  let sign := signLength cs
  let whole := digitCount (cs.drop sign)
  match cs.drop (sign + whole) with
  | '.' :: rest =>
    let frac := digitCount rest
    if whole = 0 then 0 else sign + whole + 1 + frac + exponentLength (rest.drop frac)
  | _ => 0

/-- The length of a hexadecimal floating-point literal at the start; zero if there is none. -/
def hexFloatLength : List Char → Nat
  | '0' :: 'x' :: c :: cs =>
    if ['K', 'L', 'M', 'H', 'R'].contains c then (if hexCount cs = 0 then 0 else hexCount cs + 3)
    else if hexCount (c :: cs) = 0 then 0 else hexCount (c :: cs) + 2
  | _ => 0

/-- The length of a decimal integer at the start; zero if there is none. -/
def intLength : List Char → Nat
  | '-' :: cs => if digitCount cs = 0 then 0 else digitCount cs + 1
  | cs => digitCount cs

/-- The length of a hexadecimal integer at the start; zero if there is none. -/
def hexIntLength : List Char → Nat
  | s :: '0' :: 'x' :: cs =>
    if (s == 'u' || s == 's') && hexCount cs ≠ 0 then hexCount cs + 3 else 0
  | _ => 0

/-- The token of a decimal integer. -/
def intToken : List Char → Token
  | '-' :: cs => .int (-(((digits? cs).getD 0 : Nat) : Int))
  | cs => .int ((digits? cs).getD 0)

/-- The token of a hexadecimal integer. -/
def hexIntToken (cs : List Char) : Token := .hexInt (cs.head? == some 's') (hexNumber (cs.drop 3))

/-! ### Words -/

/-- The tokens that words can start with: the length of each, and the token. -/
def candidates (cs : List Char) (run : Nat) : List (Nat × (List Char → Token)) :=
  [(keywordLength cs run, fun w => .word (String.ofList w)),
    (familiesLength cs, fun w => .word (String.ofList w)),
    (intTypeLength cs, fun w => .intType ((digits? (w.drop 1)).getD 0)),
    (decimalLength cs, fun w => .float (String.ofList w)),
    (hexFloatLength cs, fun w => .float (String.ofList w)),
    (intLength cs, intToken),
    (hexIntLength cs, hexIntToken)]

/-- The longer one of two candidates; of two equally long ones the first. -/
def longer (a b : Nat × (List Char → Token)) : Nat × (List Char → Token) :=
  if a.1 < b.1 then b else a

/-- The token of a word before a colon. -/
def labelToken (word : List Char) : Token :=
  if isFieldName (String.ofList word) then .field (String.ofList word) else .label (.ofWord word)

/-- The token at the start of a word, and what is left. A word that starts with no token is left
out. -/
def scanWord (cs : List Char) : Option Token × List Char :=
  let run := cs.takeWhile isWordChar
  match cs.drop run.length with
  | ':' :: rest => (some (labelToken run), rest)
  | rest =>
    match run with
    | '$' :: c :: word =>
      if isLetter c then (some (.comdat (.ofWord (c :: word))), rest) else (none, rest)
    | _ =>
      let best := (candidates cs run.length).foldl longer (0, intToken)
      if best.1 = 0 then (none, rest) else (some (best.2 (cs.take best.1)), cs.drop best.1)

/-- A number that starts with a plus sign. Without a point it is no token. -/
def scanPlus (cs : List Char) : Option Token × List Char :=
  match decimalLength ('+' :: cs) with
  | 0 => (none, cs.dropWhile Char.isDigit)
  | n => (some (.float (String.ofList (('+' :: cs).take n))), ('+' :: cs).drop n)

/-! ### Texts and names -/

/-- A text in quotes whose first quote is read already, and what is left. -/
def scanQuoted (cs : List Char) : Option (List Char × List Char) :=
  match cs.dropWhile (· != '"') with
  | _ :: rest => some (cs.takeWhile (· != '"'), rest)
  | [] => none

/-- A text in quotes. It is a label if a colon follows. -/
def scanString (cs : List Char) : Option Token × List Char :=
  match scanQuoted cs with
  | some (raw, ':' :: rest) => (some (.label (.ofQuoted raw)), rest)
  | some (raw, rest) => (some (.string raw), rest)
  | none => (none, [])

/-- A name in quotes whose first quote is read already. -/
def scanQuotedName (token : Name → Token) (cs : List Char) : Option Token × List Char :=
  match scanQuoted cs with
  | some (raw, rest) => (some (token (.ofQuoted raw)), rest)
  | none => (none, [])

/-- A name after its sign. -/
def scanName (token : Name → Token) (cs : List Char) : Option Token × List Char :=
  match cs with
  | '"' :: rest => scanQuotedName token rest
  | c :: _ =>
    let word := if isLetter c then cs.takeWhile isWordChar else cs.takeWhile Char.isDigit
    if word.isEmpty then (none, cs) else (some (token (.ofWord word)), cs.drop word.length)
  | [] => (none, [])

/-- The number of a group of attributes after its sign. -/
def scanAttrGroup (cs : List Char) : Option Token × List Char :=
  ((digits? (cs.takeWhile Char.isDigit)).map .attrGroup, cs.dropWhile Char.isDigit)

/-- The number or the name of a note after its sign. The sign is a token of its own too. -/
def scanNote (cs : List Char) : Option Token × List Char :=
  match digits? (cs.takeWhile Char.isDigit) with
  | some n => (some (.noteNumber n), cs.dropWhile Char.isDigit)
  | none =>
    let word := cs.takeWhile fun c => isWordChar c || c == '\\'
    if word.isEmpty then (some (.mark '!'), cs)
    else (some (.noteName (String.ofList word)), cs.drop word.length)

/-- The characters between tokens. -/
def isBlank (c : Char) : Bool := c == ' ' || c == '\t' || c == '\r' || c == '\n' || c == '\x00'

/-- The characters that are tokens. -/
def marks : List Char := ['(', ')', '*', ',', '<', '=', '>', '[', ']', '\x7b', '\x7d', '|']

/-- The token at the start of characters of which the first is given, and what is left. Blanks,
comments and characters of no token give none. -/
def scan (c : Char) (cs : List Char) : Option Token × List Char :=
  if isBlank c then (none, cs)
  else if c == ';' then (none, cs.dropWhile fun c => c != '\n' && c != '\r')
  else if c == '"' then scanString cs
  else if c == '%' then scanName .var cs
  else if c == '@' then scanName .global cs
  else if c == '#' then scanAttrGroup cs
  else if c == '!' then scanNote cs
  else if c == '+' then scanPlus cs
  else if c == '$' && cs.head? == some '"' then scanQuotedName .comdat (cs.drop 1)
  else if isWordChar c then scanWord (c :: cs)
  else if marks.contains c then (some (.mark c), cs)
  else (none, cs)

/-- The tokens of characters. Every step takes one character at least, so that the length of the
text bounds their number. -/
def tokensWithin : Nat → List Char → List Token
  | fuel + 1, c :: cs =>
    match scan c cs with
    | (some t, rest) => t :: tokensWithin fuel rest
    | (none, rest) => tokensWithin fuel rest
  | _, _ => []

/-- The tokens of a text. -/
def tokens (text : String) : List Token := tokensWithin text.length text.toList

end Codegen.Llvm
