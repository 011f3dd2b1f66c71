import Codegen.Llvm.Import
import Codegen.Proofs.Histories
import Codegen.Proofs.Interning

/-!
# Importing types, operands and operations

Types, operands and operations are imported one by one while the table of types and the constants of
the function grow. What was imported stays valid as they grow, so that the parts of an operation can
be looked at one after the other and put together at the end.

## Main definitions

* `Llvm.Importer.Grows`: what stays while an operation is imported.
* `Llvm.TypeImage`: the numbers that stand for a type.
* `Llvm.Yields`, `Llvm.Lasting`: what a computation gives, and what stays true of it.
* `Llvm.OperandImage`: the values that stand for an operand.
* `Llvm.OpImage`, `Llvm.TermImage`: the operations that stand for an instruction or a terminator.

## Main results

* `Llvm.importType_eq_ok`: the number of an imported type stands for the type.
* `Llvm.yields_operation`, `Llvm.yields_terminatorOperation`: an imported operation stands for what
  it was imported from.
-/

namespace Codegen

/-- A list of computations, each of which gives what is true from then on. -/
theorem EStateM.mapM_eq_ok {ε σ α β : Type} {le : σ → σ → Prop} {R : σ → α → β → Prop}
    {f : α → EStateM ε σ β} (hrefl : ∀ s, le s s)
    (htrans : ∀ {s t u}, le s t → le t u → le s u)
    (hmono : ∀ {s t a b}, R s a b → le s t → R t a b)
    (hf : ∀ {a b s t}, f a s = .ok b t → le s t ∧ R t a b) {l : List α} {r : List β} {s t : σ}
    (h : l.mapM f s = .ok r t) : le s t ∧ List.Forall₂ (R t) l r := by
  induction l generalizing r s with
  | nil =>
    obtain ⟨rfl, rfl⟩ := EStateM.pure_eq_ok.1 h
    exact ⟨hrefl s, .nil⟩
  | cons a l ih =>
    rw [List.mapM_cons] at h
    obtain ⟨b, u, hb, h⟩ := EStateM.bind_eq_ok.1 h
    obtain ⟨bs, v, hbs, h⟩ := EStateM.bind_eq_ok.1 h
    obtain ⟨rfl, rfl⟩ := EStateM.pure_eq_ok.1 h
    obtain ⟨hle, hR⟩ := hf hb
    obtain ⟨hles, hRs⟩ := ih hbs
    exact ⟨htrans hle hles, .cons (hmono hR hles) hRs⟩

namespace Llvm

/-- The numbers that stand for a type. Address spaces are dropped, and a pointer to nothing that is
known is opaque. -/
inductive TypeImage (defs : TypeDefs) (types : TypeTable) : TypeExpr → TypeId → Prop
  | void {t : TypeExpr} (ht : defs.resolve t = .void) : TypeImage defs types t TypeId.void
  | int {t : TypeExpr} {bits : Nat} {id : TypeId} (ht : defs.resolve t = .int bits)
      (hid : types.get? id = some (.int (Int64.ofNat bits).toInt.toNat)) : TypeImage defs types t id
  | unknownPointer {t : TypeExpr} {space : Nat} {id : TypeId}
      (ht : defs.resolve t = .pointer .missing space)
      (hid : types.get? id = some (.pointer TypeId.invalid)) : TypeImage defs types t id
  | pointer {t elem : TypeExpr} {space : Nat} {e id : TypeId}
      (ht : defs.resolve t = .pointer elem space) (he : TypeImage defs types elem e)
      (hid : types.get? id = some (.pointer e)) : TypeImage defs types t id
  | array {t elem : TypeExpr} {length : Nat} {e id : TypeId}
      (ht : defs.resolve t = .array length elem) (he : TypeImage defs types elem e)
      (hid : types.get? id = some (.array (UInt64.ofNat length) e)) : TypeImage defs types t id
  | function {t result : TypeExpr} {params : List TypeExpr} {variadic : Bool} {r id : TypeId}
      {ps : List TypeId} (ht : defs.resolve t = .function result params variadic)
      (hr : TypeImage defs types result r)
      (hps : List.Forall₂ (TypeImage defs types) params ps)
      (hid : types.get? id = some (.function r ps variadic)) : TypeImage defs types t id

variable {defs : TypeDefs} {types types' : TypeTable} {t : TypeExpr} {id : TypeId}

theorem TypeImage.mono (h : TypeImage defs types t id) (he : types.Extends types') :
    TypeImage defs types' t id := by
  refine @TypeImage.rec defs types (fun t id _ => TypeImage defs types' t id)
    (fun params ps _ => List.Forall₂ (TypeImage defs types') params ps)
    ?void ?int ?unknownPointer ?pointer ?array ?function ?nil ?cons t id h
  case void => exact fun ht => .void ht
  case int => exact fun ht hid => .int ht (he _ _ hid)
  case unknownPointer => exact fun ht hid => .unknownPointer ht (he _ _ hid)
  case pointer => exact fun ht _ hid ih => .pointer ht ih (he _ _ hid)
  case array => exact fun ht _ hid ih => .array ht ih (he _ _ hid)
  case function => exact fun ht _ _ hid ihr ihps => .function ht ihr ihps (he _ _ hid)
  case nil => exact .nil
  case cons => exact fun _ _ ih ihs => .cons ih ihs

theorem addType_eq_ok {ty : Ty} {add : TypeTable → TypeId × TypeTable}
    (hadd : add types = types.intern ty) (h : addType add types = .ok id types') :
    types.Extends types' ∧ types'.get? id = some ty := by
  simp only [addType, EStateM.bind_eq_ok, EStateM.get_eq_ok, EStateM.set_eq_ok,
    EStateM.pure_eq_ok] at h
  obtain ⟨_, _, ⟨rfl, rfl⟩, _, _, rfl, rfl, rfl⟩ := h
  rw [hadd]
  exact ⟨types.extends_intern ty, types.get?_intern ty⟩

theorem addInt_eq_ok {bits : Nat} (h : addInt bits types = .ok id types') :
    types.Extends types' ∧ types'.get? id = some (.int (Int64.ofNat bits).toInt.toNat) := by
  simp only [addInt, EStateM.bind_eq_ok, EStateM.get_eq_ok, EStateM.set_eq_ok,
    EStateM.pure_eq_ok, liftFaultStop_eq_ok] at h
  obtain ⟨_, _, ⟨rfl, rfl⟩, added, _, ⟨hadded, rfl⟩, _, _, rfl, rfl, rfl⟩ := h
  rw [TypeTable.int] at hadded
  split at hadded
  · cases hadded
  · cases hadded
    exact ⟨types.extends_intern _, types.get?_intern _⟩

theorem importTypeWithin_eq_ok {fuel : Nat}
    (h : importTypeWithin defs fuel t types = .ok id types') :
    types.Extends types' ∧ TypeImage defs types' t id := by
  induction fuel generalizing t id types types' with
  | zero => exact absurd h EStateM.throw_ne_ok
  | succ fuel ih =>
    rw [importTypeWithin] at h
    cases ht : defs.resolve t with
    | void =>
      rw [ht] at h
      obtain ⟨rfl, rfl⟩ := EStateM.pure_eq_ok.1 h
      exact ⟨.refl _, .void ht⟩
    | int bits =>
      rw [ht] at h
      obtain ⟨hext, hid⟩ := addInt_eq_ok h
      exact ⟨hext, .int ht hid⟩
    | pointer elem space =>
      rw [ht] at h
      by_cases helem : elem = .missing
      · subst helem
        obtain ⟨hext, hid⟩ := addType_eq_ok rfl h
        exact ⟨hext, .unknownPointer ht hid⟩
      · simp only at h
        obtain ⟨e, types₁, he, h⟩ := EStateM.bind_eq_ok.1 h
        obtain ⟨hext₁, himage⟩ := ih he
        obtain ⟨hext, hid⟩ := addType_eq_ok rfl h
        exact ⟨hext₁.trans hext, .pointer ht (himage.mono hext) hid⟩
    | array length elem =>
      rw [ht] at h
      obtain ⟨e, types₁, he, h⟩ := EStateM.bind_eq_ok.1 h
      obtain ⟨hext₁, himage⟩ := ih he
      obtain ⟨hext, hid⟩ := addType_eq_ok rfl h
      exact ⟨hext₁.trans hext, .array ht (himage.mono hext) hid⟩
    | function result params variadic =>
      rw [ht] at h
      obtain ⟨r, types₁, hr, h⟩ := EStateM.bind_eq_ok.1 h
      obtain ⟨ps, types₂, hps, h⟩ := EStateM.bind_eq_ok.1 h
      obtain ⟨hext₁, hrimage⟩ := ih hr
      obtain ⟨hext₂, hpsimage⟩ := EStateM.mapM_eq_ok (R := TypeImage defs) TypeTable.Extends.refl
        TypeTable.Extends.trans TypeImage.mono ih hps
      obtain ⟨hext, hid⟩ := addType_eq_ok rfl h
      have hpsimage := hpsimage.imp fun _ _ himage => himage.mono hext
      exact ⟨(hext₁.trans hext₂).trans hext,
        .function ht (hrimage.mono (hext₂.trans hext)) hpsimage hid⟩
    | _ =>
      rw [ht] at h
      exact absurd h EStateM.throw_ne_ok

/-- The number of an imported type stands for the type. -/
theorem importType_eq_ok (h : importType defs t types = .ok id types') :
    types.Extends types' ∧ TypeImage defs types' t id := importTypeWithin_eq_ok h

/-! ### Functions that are imported -/

/-- The types and values of a function that is imported stay. -/
structure Importer.Keeps (s s' : Importer) : Prop where
  types : s.types.Extends s'.types
  values : ∀ (v : ValueId) (x : Value), s.func.values[v]? = some x → s'.func.values[v]? = some x

/-- Nothing but types and constants is added to a function that is imported. -/
structure Importer.Grows (s s' : Importer) : Prop extends Importer.Keeps s s' where
  func : s'.func = { s.func with values := s'.func.values }
  traced : ∀ {steps : List Codegen.Func.Step}, s.func.Traced steps →
    ∃ steps', s'.func.Traced steps' ∧
      Codegen.Func.insertions steps' = Codegen.Func.insertions steps

namespace Importer

variable {s s' s'' : Importer}

theorem Keeps.refl (s : Importer) : s.Keeps s := ⟨.refl _, fun _ _ hx => hx⟩

theorem Keeps.trans (h : s.Keeps s') (h' : s'.Keeps s'') : s.Keeps s'' :=
  ⟨h.types.trans h'.types, fun v x hx => h'.values v x (h.values v x hx)⟩

theorem Grows.refl (s : Importer) : s.Grows s :=
  ⟨.refl s, rfl, fun {steps} hs => ⟨steps, hs, rfl⟩⟩

theorem Grows.trans (h : s.Grows s') (h' : s'.Grows s'') : s.Grows s'' := by
  refine ⟨h.toKeeps.trans h'.toKeeps, ?_, fun {steps} hs => ?_⟩
  · rw [h'.func, h.func]
  · obtain ⟨steps', hs', hlog⟩ := h.traced hs
    obtain ⟨steps'', hs'', hlog'⟩ := h'.traced hs'
    exact ⟨steps'', hs'', hlog'.trans hlog⟩

theorem grows_types {types : TypeTable} (h : s.types.Extends types) :
    s.Grows { s with types } :=
  ⟨⟨h, fun _ _ hx => hx⟩, rfl, fun {steps} hs => ⟨steps, hs, rfl⟩⟩

theorem grows_const (s : Importer) (payload : Int64) (type : TypeId) :
    s.Grows { s with func := (s.func.addValue (.const payload type)).2 } := by
  refine ⟨⟨.refl _, fun v x hx => ?_⟩, rfl, fun {steps} hs => ⟨_, hs.const payload type, ?_⟩⟩
  · have hlt : v < s.func.values.size := (Array.getElem?_eq_some_iff.1 hx).1
    simpa [Codegen.Func.addValue, Array.getElem?_push, Nat.ne_of_lt hlt] using hx
  · simp [Codegen.Func.insertions]

end Importer

/-! ### Computations that add types and constants -/

section Yields

variable {α β : Type} {x : Import α} {f : α → Import β} {R : Importer → α → Prop}
  {Q : Importer → β → Prop}

/-- A computation adds nothing but types and constants, and its answer is related to the state that
it leaves. -/
def Yields (x : Import α) (R : Importer → α → Prop) : Prop :=
  ∀ (s s' : Importer) (a : α), x s = .ok a s' → s.Grows s' ∧ R s' a

/-- What is true of an answer stays true. -/
def Lasting (R : Importer → α → Prop) : Prop :=
  ∀ (s s' : Importer) (a : α), R s a → s.Keeps s' → R s' a

theorem yields_pure {a : α} (h : ∀ s, R s a) : Yields (pure a) R := by
  intro s s' b hb
  obtain ⟨rfl, rfl⟩ := EStateM.pure_eq_ok.1 hb
  exact ⟨.refl s, h s⟩

theorem yields_throw (e : Stop) : Yields (throw e) R := fun _ _ _ h => absurd h EStateM.throw_ne_ok

theorem Yields.bind (hx : Yields x R) (hR : Lasting R)
    (hf : ∀ a, Yields (f a) fun s b => R s a → Q s b) : Yields (x >>= f) Q := by
  intro s s' b h
  obtain ⟨a, t, ha, h⟩ := EStateM.bind_eq_ok.1 h
  obtain ⟨hgrows, hRa⟩ := hx s t a ha
  obtain ⟨hgrows', hQ⟩ := hf a t s' b h
  exact ⟨hgrows.trans hgrows', hQ (hR t s' a hRa hgrows'.toKeeps)⟩

theorem Yields.mapM {R : α → Importer → β → Prop} (hf : ∀ a, Yields (f a) (R a))
    (hR : ∀ a, Lasting (R a)) (l : List α) :
    Yields (l.mapM f) fun s bs => List.Forall₂ (R · s ·) l bs := fun _ _ _ h =>
  EStateM.mapM_eq_ok (R := fun s a b => R a s b) Importer.Grows.refl Importer.Grows.trans
    (fun hRa hgrows => hR _ _ _ _ hRa hgrows.toKeeps) (fun ha => hf _ _ _ _ ha) h

end Yields

/-! ### Operands -/

variable {m : Module} {scope : Scope} {s s' : Importer}

/-- The values that stand for an operand. -/
inductive OperandImage (m : Module) (scope : Scope) (s : Importer) : Operand → ValueId → Prop
  /-- A name stands for the value that the scope has for it. -/
  | var {t : TypeExpr} {n : Name} {v : ValueId} (h : scope.values.lookup n = some v) :
      OperandImage m scope s (.var t n) v
  /-- The low 64 bits of a number are kept, and its type. -/
  | const {c : Const} {x : Int} {bits : Nat} {id : TypeId} {v : ValueId} (hx : c.value? = some x)
      (hbits : m.types.resolve c.type = .int bits) (ht : TypeImage m.types s.types c.type id)
      (hv : s.func.values[v]? = some (.const (Int64.ofInt x) id)) :
      OperandImage m scope s (.const c) v

/-- The numbers that stand for the type of the result of an operation. -/
def ResultImage (m : Module) (s : Importer) (op : InstOp) (id : TypeId) : Prop :=
  ∃ t, m.resultType? op = .ok (some t) ∧ TypeImage m.types s.types t id

theorem lasting_typeImage (t : TypeExpr) :
    Lasting fun s id => TypeImage m.types s.types t id := fun _ _ _ h hs => h.mono hs.types

theorem lasting_resultImage (op : InstOp) : Lasting fun s id => ResultImage m s op id := by
  rintro s s' id ⟨t, ht, himage⟩ hs
  exact ⟨t, ht, himage.mono hs.types⟩

theorem lasting_operandImage (x : Operand) : Lasting fun s v => OperandImage m scope s x v := by
  intro s s' v h hs
  cases h with
  | var h => exact .var h
  | const hx hbits ht hv => exact .const hx hbits (ht.mono hs.types) (hs.values _ _ hv)

theorem onTypes_eq_ok {α : Type} {x : TypeImport α} {a : α} (h : onTypes x s = .ok a s') :
    ∃ types, x s.types = .ok a types ∧ s' = { s with types } := by
  simp only [onTypes, EStateM.run] at h
  split at h
  · next hx =>
    cases h
    exact ⟨_, hx, rfl⟩
  · cases h

theorem yields_typeNumber (t : TypeExpr) :
    Yields (typeNumber m t) fun s id => TypeImage m.types s.types t id := by
  intro s s' id h
  obtain ⟨types, hid, rfl⟩ := onTypes_eq_ok h
  obtain ⟨hext, himage⟩ := importType_eq_ok hid
  exact ⟨Importer.grows_types hext, himage⟩

theorem yields_resultNumber (op : InstOp) :
    Yields (resultNumber m op) fun s id => ResultImage m s op id := by
  unfold resultNumber
  split
  · next t ht =>
    intro s s' id h
    obtain ⟨hgrows, himage⟩ := yields_typeNumber t s s' id h
    exact ⟨hgrows, t, ht, himage⟩
  · exact yields_throw _
  · exact yields_throw _

theorem addConst_eq_ok {bits : Nat} {x : Int} {v : ValueId} (h : addConst bits x s = .ok v s') :
    s.Grows s' ∧ ∃ id, s'.types.get? id = some (.int (Int64.ofNat bits).toInt.toNat) ∧
      s'.func.values[v]? = some (.const (Int64.ofInt x) id) := by
  simp only [addConst, EStateM.bind_eq_ok, EStateM.get_eq_ok, EStateM.set_eq_ok,
    EStateM.pure_eq_ok] at h
  obtain ⟨id, s₁, hid, _, _, ⟨rfl, rfl⟩, _, _, rfl, rfl, rfl⟩ := h
  obtain ⟨types, htypes, rfl⟩ := onTypes_eq_ok hid
  obtain ⟨hext, hget⟩ := addInt_eq_ok htypes
  refine ⟨(Importer.grows_types hext).trans (Importer.grows_const _ _ _), id, hget, ?_⟩
  simp [Codegen.Func.addValue]

theorem yields_operandValue (x : Operand) :
    Yields (operandValue m scope x) fun s v => OperandImage m scope s x v := by
  cases x with
  | var t n =>
    simp only [operandValue]
    split
    · next hn => exact yields_pure fun _ => .var hn
    · exact yields_throw _
  | const c =>
    simp only [operandValue]
    split
    · next hx hbits =>
      intro s s' v h
      obtain ⟨hgrows, id, hid, hv⟩ := addConst_eq_ok h
      exact ⟨hgrows, .const hx hbits (.int hbits hid) hv⟩
    · exact yields_throw _
  | _ => exact yields_throw _

theorem yields_blockNamed (f : Func) (n : Name) :
    Yields (blockNamed scope f n) fun _ b => scope.blocks.lookup n = some b := by
  unfold blockNamed
  split
  · next hn => exact yields_pure fun _ => hn
  · exact yields_throw _

theorem lasting_const {α : Type} {P : α → Prop} : Lasting fun _ a => P a := fun _ _ _ h _ => h

/-! ### Operations -/

/-- The numbers of elements that stand for the size of a piece of the stack. -/
inductive CountImage : Option Operand → UInt64 → Prop
  | one : CountImage none 1
  /-- The low 64 bits of a number without its sign are kept. -/
  | const {c : Const} {x : Int} (hx : c.value? = some x) :
      CountImage (some (.const c)) (UInt64.ofNat (x.natAbs % 18446744073709551616))

/-- The pair of a value and a block that stands for what comes into a phi. -/
def IncomingImage (m : Module) (scope : Scope) (inc : Operand × Name) (s : Importer)
    (x : ValueId × BlockId) : Prop :=
  OperandImage m scope s inc.1 x.1 ∧ scope.blocks.lookup inc.2 = some x.2

/-- The operations that stand for the operation of an instruction. -/
inductive OpImage (m : Module) (scope : Scope) (s : Importer) : InstOp → Operation → Prop
  | alloca {elem : TypeExpr} {count : Option Operand} {align space : Nat} {t e : TypeId}
      {k : UInt64} (ht : ResultImage m s (.alloca elem count align space) t)
      (he : TypeImage m.types s.types elem e) (hk : CountImage count k) :
      OpImage m scope s (.alloca elem count align space) (.alloca t e k (UInt32.ofNat align))
  | phi {type : TypeExpr} {incoming : List (Operand × Name)} {t : TypeId}
      {xs : List (ValueId × BlockId)} (ht : ResultImage m s (.phi type incoming) t)
      (hxs : List.Forall₂ (IncomingImage m scope · s ·) incoming xs) :
      OpImage m scope s (.phi type incoming) (.phi t xs)
  | load {type : TypeExpr} {addr : Operand} {t : TypeId} {a : ValueId}
      (ht : ResultImage m s (.load type addr) t) (ha : OperandImage m scope s addr a) :
      OpImage m scope s (.load type addr) (.load t a)
  | store {value addr : Operand} {v a : ValueId} (hv : OperandImage m scope s value v)
      (ha : OperandImage m scope s addr a) : OpImage m scope s (.store value addr) (.store v a)
  | binary {b : BinaryOp} {type : TypeExpr} {x y : Operand} {t : TypeId} {vx vy : ValueId}
      (ht : ResultImage m s (.binary b type x y) t) (hx : OperandImage m scope s x vx)
      (hy : OperandImage m scope s y vy) :
      OpImage m scope s (.binary b type x y) (.binary b t vx vy)
  | icmp {p : Predicate} {type : TypeExpr} {x y : Operand} {t : TypeId} {vx vy : ValueId}
      (ht : ResultImage m s (.icmp (.known p) type x y) t) (hx : OperandImage m scope s x vx)
      (hy : OperandImage m scope s y vy) :
      OpImage m scope s (.icmp (.known p) type x y) (.icmp p t vx vy)
  | sext {x : Operand} {target : TypeExpr} {t : TypeId} {v : ValueId}
      (ht : ResultImage m s (.sext x target) t) (hx : OperandImage m scope s x v) :
      OpImage m scope s (.sext x target) (.sext t v)
  | zext {x : Operand} {target : TypeExpr} {t : TypeId} {v : ValueId}
      (ht : ResultImage m s (.zext x target) t) (hx : OperandImage m scope s x v) :
      OpImage m scope s (.zext x target) (.zext t v)
  | getElementPtr {elem baseType : TypeExpr} {base : Operand} {indices : List Operand}
      {t e : TypeId} {b : ValueId} {vs : List ValueId}
      (ht : ResultImage m s (.getElementPtr elem baseType base indices) t)
      (he : TypeImage m.types s.types elem e) (hb : OperandImage m scope s base b)
      (hvs : List.Forall₂ (OperandImage m scope s) indices vs) :
      OpImage m scope s (.getElementPtr elem baseType base indices) (.getElementPtr t e b vs)
  /-- A call names the function that it calls. -/
  | call {type type' : TypeExpr} {n : Name} {args mentioned : List Operand} {g : Func} {t : TypeId}
      {vs : List ValueId} (hg : m.func? n = some g)
      (ht : ResultImage m s (.call type (.const (.global type' n)) args mentioned) t)
      (hvs : List.Forall₂ (OperandImage m scope s) args vs) :
      OpImage m scope s (.call type (.const (.global type' n)) args mentioned)
        (.call t g.name.shown vs)

/-- The operations that stand for a terminator. -/
inductive TermImage (m : Module) (scope : Scope) (s : Importer) : Terminator → Operation → Prop
  | br {n : Name} {b : BlockId} (hb : scope.blocks.lookup n = some b) :
      TermImage m scope s (.br (.block n)) (.br b)
  | condBr {cond : Operand} {t e : Name} {c : ValueId} {b b' : BlockId}
      (hc : OperandImage m scope s cond c) (ht : scope.blocks.lookup t = some b)
      (he : scope.blocks.lookup e = some b') :
      TermImage m scope s (.condBr cond t e) (.condBr c b b')
  | ret : TermImage m scope s (.ret none) (.ret none)
  | retValue {x : Operand} {v : ValueId} (hx : OperandImage m scope s x v) :
      TermImage m scope s (.ret (some x)) (.ret (some v))

/-- The operations that stand for an instruction or for a terminator. -/
def SourceImage (m : Module) (scope : Scope) (s : Importer) :
    InstOp ⊕ Terminator → Operation → Prop
  | .inl op, o => OpImage m scope s op o
  | .inr t, o => TermImage m scope s t o

/-- The operands of an instruction that have values, in order. -/
def InstOp.operands : InstOp → List Operand
  | .alloca _ _ _ _ => []
  | .phi _ incoming => incoming.map (·.1)
  | .load _ addr => [addr]
  | .store value addr => [value, addr]
  | .binary _ _ x y => [x, y]
  | .icmp _ _ x y => [x, y]
  | .sext x _ => [x]
  | .zext x _ => [x]
  | .getElementPtr _ _ base indices => base :: indices
  | .call _ _ args _ => args
  | .pair _ _ x y => [x, y]
  | .other _ _ _ operands => operands

/-- The operands of a terminator that have values, in order. -/
def Terminator.operands : Terminator → List Operand
  | .br _ => []
  | .condBr cond _ _ => [cond]
  | .ret value => value.toList
  | .invoke _ _ _ _ args _ => args
  | .other _ _ operands _ => operands

/-- The operands of an instruction or of a terminator that have values, in order. -/
def sourceOperands : InstOp ⊕ Terminator → List Operand
  | .inl op => op.operands
  | .inr t => t.operands

/-- The values that an operation reads stand one by one for the operands. -/
theorem SourceImage.operands {source : InstOp ⊕ Terminator} {o : Operation}
    (h : SourceImage m scope s source o) :
    List.Forall₂ (OperandImage m scope s) (sourceOperands source) o.args := by
  cases source with
  | inl op =>
    cases h with
    | alloca => exact .nil
    | phi _ hxs =>
      refine List.forall₂_map_left_iff.2 (List.forall₂_map_right_iff.2 ?_)
      exact hxs.imp fun _ _ hx => hx.1
    | load _ hx | sext _ hx | zext _ hx => exact .cons hx .nil
    | store hx hy | binary _ hx hy | icmp _ hx hy => exact .cons hx (.cons hy .nil)
    | getElementPtr _ _ hb hvs => exact .cons hb hvs
    | call _ _ hvs => exact hvs
  | inr t =>
    cases h with
    | br | ret => exact .nil
    | condBr hc | retValue hc => exact .cons hc .nil

section Lasting

theorem lasting_incomingImage (inc : Operand × Name) : Lasting (IncomingImage m scope inc) :=
  fun _ _ _ h hs => ⟨lasting_operandImage _ _ _ _ h.1 hs, h.2⟩

/-- What stands for the elements of a list goes on to do so. -/
theorem Lasting.forall₂ {α β : Type} {R : α → Importer → β → Prop} (hR : ∀ a, Lasting (R a))
    (l : List α) : Lasting fun s bs => List.Forall₂ (R · s ·) l bs :=
  fun _ _ _ h hs => h.imp fun a _ hb => hR a _ _ _ hb hs

theorem lasting_operandImages (xs : List Operand) :
    Lasting fun s vs => List.Forall₂ (OperandImage m scope s) xs vs :=
  Lasting.forall₂ lasting_operandImage xs

theorem lasting_opImage (op : InstOp) : Lasting fun s o => OpImage m scope s op o := by
  intro s s' o h hs
  have type {t : TypeExpr} {id : TypeId} (ht : TypeImage m.types s.types t id) :=
    lasting_typeImage t s s' id ht hs
  have result {id : TypeId} (ht : ResultImage m s op id) := lasting_resultImage op s s' id ht hs
  have operand {x : Operand} {v : ValueId} (hx : OperandImage m scope s x v) :=
    lasting_operandImage x s s' v hx hs
  have operands {xs : List Operand} {vs : List ValueId}
      (hvs : List.Forall₂ (OperandImage m scope s) xs vs) :=
    lasting_operandImages xs s s' vs hvs hs
  cases h with
  | alloca ht he hk => exact .alloca (result ht) (type he) hk
  | phi ht hxs => exact .phi (result ht) (Lasting.forall₂ lasting_incomingImage _ _ _ _ hxs hs)
  | load ht ha => exact .load (result ht) (operand ha)
  | store hv ha => exact .store (operand hv) (operand ha)
  | binary ht hx hy => exact .binary (result ht) (operand hx) (operand hy)
  | icmp ht hx hy => exact .icmp (result ht) (operand hx) (operand hy)
  | sext ht hx => exact .sext (result ht) (operand hx)
  | zext ht hx => exact .zext (result ht) (operand hx)
  | getElementPtr ht he hb hvs =>
    exact .getElementPtr (result ht) (type he) (operand hb) (operands hvs)
  | call hg ht hvs => exact .call hg (result ht) (operands hvs)

theorem lasting_termImage (t : Terminator) : Lasting fun s o => TermImage m scope s t o := by
  intro s s' o h hs
  cases h with
  | br hb => exact .br hb
  | condBr hc ht he => exact .condBr (lasting_operandImage _ _ _ _ hc hs) ht he
  | ret => exact .ret
  | retValue hx => exact .retValue (lasting_operandImage _ _ _ _ hx hs)

theorem lasting_sourceImage (source : InstOp ⊕ Terminator) :
    Lasting fun s o => SourceImage m scope s source o := by
  cases source with
  | inl op => exact lasting_opImage op
  | inr t => exact lasting_termImage t

end Lasting

theorem yields_allocaCount (count : Option Operand) :
    Yields (allocaCount count) fun _ k => CountImage count k := by
  rcases count with _ | x
  · exact yields_pure fun _ => .one
  · cases x with
    | const c =>
      simp only [allocaCount]
      split
      · next hx => exact yields_pure fun _ => .const hx
      · exact yields_throw _
    | _ => exact yields_throw _

theorem yields_calledFunc (callee : Operand) :
    Yields (calledFunc m callee) fun _ g =>
      ∃ type n, callee = .const (.global type n) ∧ m.func? n = some g := by
  unfold calledFunc
  split
  · next type n =>
    split
    · next hg => exact yields_pure fun _ => ⟨type, n, rfl, hg⟩
    · exact yields_throw _
  · exact yields_throw _

theorem yields_importIncoming (f : Func) (inc : Operand × Name) :
    Yields (importIncoming m scope f inc) (IncomingImage m scope inc) :=
  (yields_operandValue inc.1).bind (lasting_operandImage _) fun _ =>
    (yields_blockNamed f inc.2).bind lasting_const fun _ => yields_pure fun _ hb hv => ⟨hv, hb⟩

theorem yields_operandValues (xs : List Operand) :
    Yields (xs.mapM (operandValue m scope)) fun s vs =>
      List.Forall₂ (OperandImage m scope s) xs vs :=
  Yields.mapM yields_operandValue lasting_operandImage xs

/-- An imported operation stands for the operation of the instruction. -/
theorem yields_operation (f : Func) (op : InstOp) :
    Yields (operation m scope f op) fun s o => OpImage m scope s op o := by
  have result := yields_resultNumber (m := m) op
  have lasts := lasting_resultImage (m := m) op
  have operand := @yields_operandValue m scope
  have lasting := @lasting_operandImage m scope
  cases op with
  | alloca elem count align space =>
    refine result.bind lasts fun t => ?_
    refine (yields_typeNumber elem).bind (lasting_typeImage elem) fun e => ?_
    refine (yields_allocaCount count).bind lasting_const fun k => ?_
    exact yields_pure fun _ hk he ht => .alloca ht he hk
  | phi type incoming =>
    refine result.bind lasts fun t => ?_
    refine (Yields.mapM (yields_importIncoming f) lasting_incomingImage incoming).bind
      (.forall₂ lasting_incomingImage incoming) fun xs => ?_
    exact yields_pure fun _ hxs ht => .phi ht hxs
  | load type addr =>
    refine result.bind lasts fun t => (operand addr).bind (lasting addr) fun a => ?_
    exact yields_pure fun _ ha ht => .load ht ha
  | store value addr =>
    refine (operand value).bind (lasting value) fun v => ?_
    refine (operand addr).bind (lasting addr) fun a => ?_
    exact yields_pure fun _ ha hv => .store hv ha
  | binary b type x y =>
    refine result.bind lasts fun t => (operand x).bind (lasting x) fun vx => ?_
    refine (operand y).bind (lasting y) fun vy => ?_
    exact yields_pure fun _ hy hx ht => .binary ht hx hy
  | icmp p type x y =>
    cases p with
    | unknown n => exact yields_throw _
    | known p =>
      refine result.bind lasts fun t => (operand x).bind (lasting x) fun vx => ?_
      refine (operand y).bind (lasting y) fun vy => ?_
      exact yields_pure fun _ hy hx ht => .icmp ht hx hy
  | sext x target =>
    refine result.bind lasts fun t => (operand x).bind (lasting x) fun v => ?_
    exact yields_pure fun _ hx ht => .sext ht hx
  | zext x target =>
    refine result.bind lasts fun t => (operand x).bind (lasting x) fun v => ?_
    exact yields_pure fun _ hx ht => .zext ht hx
  | getElementPtr elem baseType base indices =>
    refine result.bind lasts fun t => ?_
    refine (yields_typeNumber elem).bind (lasting_typeImage elem) fun e => ?_
    refine (operand base).bind (lasting base) fun b => ?_
    refine (yields_operandValues indices).bind (lasting_operandImages indices) fun vs => ?_
    exact yields_pure fun _ hvs hb he ht => .getElementPtr ht he hb hvs
  | call type callee args mentioned =>
    refine (yields_calledFunc callee).bind lasting_const fun g => ?_
    refine result.bind lasts fun t => ?_
    refine (yields_operandValues args).bind (lasting_operandImages args) fun vs => ?_
    refine yields_pure fun _ hvs ht hg => ?_
    obtain ⟨type', n, rfl, hg⟩ := hg
    exact .call hg ht hvs
  | pair kind type x y => exact yields_throw _
  | other kind type types operands => exact yields_throw _

/-- An imported operation stands for the terminator. -/
theorem yields_terminatorOperation (f : Func) (t : Terminator) :
    Yields (terminatorOperation m scope f t) fun s o => TermImage m scope s t o := by
  cases t with
  | br target =>
    cases target with
    | block n =>
      exact (yields_blockNamed f n).bind lasting_const fun _ => yields_pure fun _ hb => .br hb
    | param =>
      refine (yields_throw _).bind (R := fun _ _ => False) lasting_const fun _ => ?_
      exact yields_pure fun _ hb => hb.elim
  | condBr cond t e =>
    refine (yields_operandValue cond).bind (lasting_operandImage cond) fun c => ?_
    refine (yields_blockNamed f t).bind lasting_const fun b => ?_
    refine (yields_blockNamed f e).bind lasting_const fun b' => ?_
    exact yields_pure fun _ he ht hc => .condBr hc ht he
  | ret value =>
    cases value with
    | none => exact yields_pure fun _ => .ret
    | some x =>
      refine (yields_operandValue x).bind (lasting_operandImage x) fun v => ?_
      exact yields_pure fun _ hx => .retValue hx
  | invoke kind result type callee args blocks => exact yields_throw _
  | other kind result operands blocks => exact yields_throw _

end Llvm

end Codegen
