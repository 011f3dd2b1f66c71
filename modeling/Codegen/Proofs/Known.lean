import Codegen.Source
import Codegen.Proofs.Assignment

/-!
# What can be asked about a function

Lowering asks for the types of values, for texts of types, values and blocks, for the users of
values and for registers. If all types are in the table and the operands are there, each of these
questions has an answer, unless there are more values than numbers of registers.

## Main definitions

* `Ty.components`, `TypeTable.Grounded`: types that are made of earlier types of their table.
* `Source.TypesKnown`: functions all of whose types are in the table.

## Main results

* `TypeTable.Grounded.exists_text`: types have texts.
* `Func.exists_users`: the uses of a function are collected.
* `Context.init_eq_error`: setting a context up stops only if there are too few registers.
-/

namespace Codegen

/-! ### Types and texts -/

/-- The types that a type is made of. -/
def Ty.components : Ty → List TypeId
  | .void | .int _ => []
  | .pointer e | .array _ e => [e]
  | .function result params _ => result :: params

namespace TypeTable

variable {t : TypeTable}

/-- Every type is made of types that stand before it in the table, or of the invalid type. -/
def Grounded (t : TypeTable) : Prop :=
  ∀ (n : Nat) (ty : Ty), t.entries[n]? = some ty → ∀ c ∈ ty.components, c ≤ n

theorem Grounded.start : Grounded {} := by
  intro n ty hty c hc
  cases n with
  | zero =>
    cases hty
    cases hc
  | succ n => simp at hty

/-- A table stays grounded if a type is added whose components it has. -/
theorem Grounded.intern (h : t.Grounded) (ty : Ty)
    (hty : ∀ c ∈ ty.components, c ≤ t.entries.size) : (t.intern ty).2.Grounded := by
  unfold TypeTable.intern
  split
  · exact h
  · intro n ty' hn
    rw [Array.getElem?_push] at hn
    split at hn
    · next hlast =>
      cases hn
      exact hlast ▸ hty
    · exact h n ty' hn

theorem exists_get? {id : TypeId} (hid : id ≠ TypeId.invalid) (hle : id ≤ t.entries.size) :
    ∃ n ty, id = n + 1 ∧ t.entries[n]? = some ty ∧ t.get id = .ok ty := by
  obtain ⟨n, rfl⟩ := Nat.exists_eq_succ_of_ne_zero hid
  have hget : t.entries[n]? = some t.entries[n] := Array.getElem?_eq_getElem hle
  exact ⟨n, _, rfl, hget, by rw [TypeTable.get, TypeTable.get?, hget]⟩

/-- A type of a grounded table has a text: the components of the type with number `n` have smaller
numbers, so that they need to be unfolded less deep. -/
theorem Grounded.exists_textWithin (h : t.Grounded) {depth : Nat} {id : TypeId}
    (hid : id ≤ t.entries.size) (hdepth : id < depth) : ∃ s, t.textWithin depth id = .ok s := by
  induction depth generalizing id with
  | zero => exact absurd hdepth (Nat.not_lt_zero _)
  | succ depth ih =>
    rw [textWithin]
    by_cases hinv : id = TypeId.invalid
    · exact ⟨_, if_pos hinv⟩
    obtain ⟨n, ty, rfl, hn, hget⟩ := exists_get? hinv hid
    have hcomp : ∀ c ∈ ty.components, ∃ s, t.textWithin depth c = .ok s := fun c hc =>
      have hlt : c < n + 1 := Nat.lt_succ_of_le (h n ty hn c hc)
      ih (Nat.le_trans (Nat.le_of_lt hlt) hid) (Nat.lt_of_lt_of_le hlt (Nat.le_of_lt_succ hdepth))
    rw [if_neg hinv, hget]
    cases ty with
    | void => exact ⟨_, rfl⟩
    | int bits => exact ⟨_, rfl⟩
    | pointer e =>
      obtain ⟨s, hs⟩ := hcomp e (by simp [Ty.components])
      by_cases he : e = TypeId.invalid
      · exact ⟨"ptr", by simp [bind, Except.bind, he, pure, Except.pure]⟩
      · exact ⟨s ++ "*", by simp [bind, Except.bind, he, hs, pure, Except.pure]⟩
    | array n e =>
      obtain ⟨s, hs⟩ := hcomp e (by simp [Ty.components])
      exact ⟨_, by simp [bind, Except.bind, hs, pure, Except.pure]; rfl⟩
    | function result params variadic =>
      obtain ⟨s, hs⟩ := hcomp result (by simp [Ty.components])
      cases hps : params.mapM (t.textWithin depth) with
      | error e =>
        obtain ⟨p, hp, herr⟩ := Except.exists_of_mapM_eq_error hps
        obtain ⟨s', hs'⟩ := hcomp p (by simp [Ty.components, hp])
        rw [hs'] at herr
        cases herr
      | ok ps => exact ⟨_, by simp [bind, Except.bind, hps, hs, pure, Except.pure]; rfl⟩

theorem Grounded.exists_text (h : t.Grounded) {id : TypeId} (hid : id ≤ t.entries.size) :
    ∃ s, t.text id = .ok s :=
  h.exists_textWithin hid (Nat.lt_succ_of_le (Nat.le_succ_of_le hid))

theorem exists_intBits {id : TypeId} (h : t.kind id = .int) :
    id ≤ t.entries.size ∧ ∃ bits, t.intBits id = .ok bits := by
  cases id with
  | zero => cases h
  | succ n =>
    simp only [TypeTable.kind, TypeTable.get?] at h
    split at h
    · next ty hty =>
      refine ⟨(Array.getElem?_eq_some_iff.1 hty).1, ?_⟩
      cases ty <;> cases h
      exact ⟨_, by simp only [intBits, TypeTable.get, TypeTable.get?, hty]; rfl⟩
    · cases h

end TypeTable

/-- Whether the type of a value is known: a constant is an integer, and the type of an argument is
in the table. -/
def Value.TypeKnown (types : TypeTable) : Value → Prop
  | .const _ t => types.kind t = .int
  | .arg _ t => t ≤ types.entries.size
  | .absent | .result _ => True

instance (types : TypeTable) : DecidablePred (Value.TypeKnown types)
  | .const _ t => inferInstanceAs (Decidable (types.kind t = .int))
  | .arg _ t => inferInstanceAs (Decidable (t ≤ types.entries.size))
  | .absent | .result _ => inferInstanceAs (Decidable True)

/-- Functions all of whose types are in the table. -/
structure Source.TypesKnown (src : Source) : Prop where
  grounded : src.types.Grounded
  values : ∀ x ∈ src.func.values, x.TypeKnown src.types
  instrs : ∀ ins ∈ src.func.instrs, ins.type ≤ src.types.entries.size

namespace Func

variable {f : Func} {b : BlockId} {i : InstrId} {v : ValueId}

theorem exists_valueText (types : TypeTable) (hv : v < f.values.size) :
    ∃ s, f.valueText types v = .ok s := by
  simp only [valueText, value_eq_ok.2 (Array.getElem?_eq_getElem hv), bind, Except.bind]
  cases f.values[v] with
  | const c t =>
    by_cases hbit : types.isInt t 1 = true
    · exact ⟨_, if_pos hbit⟩
    · exact ⟨_, if_neg hbit⟩
  | absent | result | arg => exact ⟨_, rfl⟩

theorem exists_blockName (hb : b < f.blocks.size) : ∃ s, f.blockName b = .ok s := by
  simp only [blockName, block_eq_ok.2 (Array.getElem?_eq_getElem hb)]
  exact ⟨_, rfl⟩

/-- Every value has a type, and the type is known. -/
theorem exists_valueType {src : Source} (hn : src.func.Naming) (ht : src.TypesKnown)
    (hv : v < src.func.values.size) :
    ∃ t s, src.func.valueType v = .ok t ∧ src.types.text t = .ok s := by
  have hget := Array.getElem?_eq_getElem hv
  have hknown := ht.values _ (Array.getElem_mem hv)
  suffices hsuff : ∃ t, src.func.valueType v = .ok t ∧ t ≤ src.types.entries.size by
    obtain ⟨t, hvt, hle⟩ := hsuff
    obtain ⟨s, hs⟩ := ht.grounded.exists_text hle
    exact ⟨t, s, hvt, hs⟩
  cases hx : src.func.values[v] with
  | absent =>
    refine ⟨TypeId.invalid, ?_, Nat.zero_le _⟩
    simp [valueType, value_eq_ok.2 hget, hx, bind, Except.bind, pure, Except.pure]
  | result i =>
    obtain ⟨ins, hins, rfl⟩ := hn.value_result (hx ▸ hget)
    exact ⟨_, valueType_result hn hins, ht.instrs ins (Array.mem_of_getElem? hins)⟩
  | const c t =>
    have hint : src.types.kind t = .int := by simpa [hx, Value.TypeKnown] using hknown
    exact ⟨t, valueType_const (hx ▸ hget), (TypeTable.exists_intBits hint).1⟩
  | arg n t => exact ⟨t, valueType_arg (hx ▸ hget), by simpa [hx, Value.TypeKnown] using hknown⟩

/-! ### Collecting the uses -/

/-- Only inserted instructions that read a value are recorded as its users. -/
theorem reads_of_users {us : Array (List InstrId)} (h : f.users = .ok us) {l : List InstrId}
    (hl : us[v]? = some l) (hi : i ∈ l) : i ∈ f.inserted ∧ ∃ op ∈ f.opOf i, v ∈ op.args := by
  refine Except.foldlM_induction (fun us => ∀ v l, us[v]? = some l → ∀ i ∈ l,
    i ∈ f.inserted ∧ ∃ op ∈ f.opOf i, v ∈ op.args) ?_ ?_ h v l hl i hi
  · intro us j us' hj hus hrec
    obtain ⟨ins, args, hins, hargs, hfold⟩ := recordUses_eq_ok hrec
    refine Except.foldlM_induction (fun us => ∀ v l, us[v]? = some l → ∀ i ∈ l,
      i ∈ f.inserted ∧ ∃ op ∈ f.opOf i, v ∈ op.args) ?_ hus hfold
    intro us w us' hw hus hrec v l hl i hi
    obtain ⟨l', hl', rfl⟩ := recordUse_eq_ok.1 hrec
    rw [Array.getElem?_setIfInBounds] at hl
    split at hl
    · next hwv =>
      split at hl
      · cases hl
        rcases List.mem_append.1 hi with hi | hi
        · exact hwv ▸ hus w l' hl' i hi
        · obtain rfl := List.mem_singleton.1 hi
          cases hop : ins.op with
          | none => simp [Instr.args, hop] at hargs
          | some op =>
            obtain rfl : op.args = args := by simpa [Instr.args, hop] using hargs
            exact ⟨hj, op, by simp [opOf, instr_eq_ok.1 hins, hop], hwv ▸ hw⟩
      · cases hl
    · exact hus v l hl i hi
  · intro v l hl i hi
    rw [Array.getElem?_replicate] at hl
    split at hl <;> cases hl
    cases hi

/-- The uses are collected if the operands exist. -/
theorem exists_users (hc : f.Coherent) (ho : f.OperandsExist) : ∃ us, f.users = .ok us := by
  cases hus : f.users with
  | ok us => exact ⟨us, rfl⟩
  | error e =>
    obtain ⟨before, i, after, us, hsplit, hbefore, hstop⟩ := Except.exists_of_foldlM_eq_error hus
    have hi : i ∈ f.inserted := by simp [hsplit]
    obtain ⟨b, hb⟩ := mem_inserted.1 hi
    obtain ⟨op, hop⟩ := Option.isSome_iff_exists.1 (hc.isSome_opOf (hc.mem_instrsOf.1 hb))
    obtain ⟨ins, hins, hinsop⟩ := Option.bind_eq_some_iff.1 hop
    simp only [recordUses, instr_eq_ok.2 hins, Instr.args, hinsop, bind, Except.bind] at hstop
    obtain ⟨bargs, v, aargs, us', hargs, hfold, hstop⟩ := Except.exists_of_foldlM_eq_error hstop
    have hv : v < us'.size := by
      rw [size_foldlM_recordUse hfold, size_foldlM_recordUses hbefore, Array.size_replicate]
      exact ho i hi op hop v (by simp [hargs])
    simp [recordUse, Array.getElem?_eq_getElem hv] at hstop

end Func

/-! ### Running out of registers -/

namespace Context

variable {f : Func} {c c' : Context} {i : InstrId} {v : ValueId} {e : Fault}

theorem add_eq_error {t : RegTable} {type : TypeId} :
    t.add type = .error e ↔ Reg.reservedId ≤ t.types.size ∧ e = .tooManyRegisters := by
  unfold RegTable.add
  split
  · next h => simp [Nat.not_le.2 h]
  · next h => simp [Nat.not_lt.1 h, eq_comm]

theorem assignArg_eq_error {n : Nat} {t : TypeId} (hv : f.values[v]? = some (.arg n t))
    (h : assignArg f c (n, v) = .error e) :
    Reg.reservedId ≤ c.regs.types.size ∧ e = .tooManyRegisters := by
  simp only [assignArg, Func.valueType_arg hv, Except.bind_eq_error, Except.pure_ne_error,
    and_false, exists_false, or_false, reduceCtorEq, false_or, Except.ok.injEq,
    exists_eq_left'] at h
  exact add_eq_error.1 h

theorem size_assignArg {arg : Nat × ValueId} (h : assignArg f c arg = .ok c') :
    c'.regs.types.size = c.regs.types.size + 1 := by
  simp only [assignArg, Except.bind_eq_ok, Except.pure_eq_ok] at h
  obtain ⟨t, -, ⟨r, regs⟩, hadd, rfl⟩ := h
  obtain ⟨-, -, hregs⟩ := add_eq_ok.1 hadd
  rw [regs_updateDef, hregs, Array.size_push]

theorem size_assignArgs {args : List (Nat × ValueId)}
    (h : args.foldlM (assignArg f) c = .ok c') :
    c'.regs.types.size = c.regs.types.size + args.length := by
  refine Except.foldlM_processed
    (fun before c' => c'.regs.types.size = c.regs.types.size + before.length) ?_ rfl h
  intro before arg after c₁ c₂ _ hsize harg
  rw [size_assignArg harg, hsize, List.length_append, List.length_singleton, Nat.add_assoc]

theorem regs_assignSlot {ins : Instr} : (c.assignSlot ins).regs = c.regs := by
  unfold assignSlot
  split <;> rfl

theorem assignInstr_eq_error {ins : Instr} (hins : f.instrs[i]? = some ins)
    (h : assignInstr f c i = .error e) :
    ins.hasResult = true ∧ Reg.reservedId ≤ c.regs.types.size ∧ e = .tooManyRegisters := by
  simp only [assignInstr, Func.instr_eq_ok.2 hins, Except.bind_eq_error, Except.pure_ne_error,
    and_false, exists_false, or_false, reduceCtorEq, false_or, Except.ok.injEq,
    exists_eq_left'] at h
  unfold assignResult at h
  split at h
  · next hr =>
    simp only [Except.bind_eq_error, Except.pure_ne_error, and_false, exists_false, or_false,
      add_eq_error, regs_updateDef] at h
    exact ⟨hr, h⟩
  · exact absurd h Except.pure_ne_error

theorem size_assignInstr (h : assignInstr f c i = .ok c') :
    c'.regs.types.size = c.regs.types.size + (f.resultOf? i).toList.length := by
  simp only [assignInstr, Except.bind_eq_ok, Except.pure_eq_ok, Func.instr_eq_ok] at h
  obtain ⟨ins, hins, c₁, hres, rfl⟩ := h
  obtain ⟨-, -, -, hvoid, hreg⟩ := assignResult_eq_ok hres
  rw [regs_assignSlot]
  cases hr : ins.hasResult with
  | false => simp [(hvoid hr).1, Func.resultOf?, hins, hr]
  | true => simp [(hreg hr).2.1, Func.resultOf?, hins, hr]

theorem size_assignInstrs {is : List InstrId} (h : is.foldlM (assignInstr f) c = .ok c') :
    c'.regs.types.size = c.regs.types.size + (is.filterMap f.resultOf?).length := by
  refine Except.foldlM_processed (fun before c' =>
    c'.regs.types.size = c.regs.types.size + (before.filterMap f.resultOf?).length) ?_ rfl h
  intro before i after c₁ c₂ _ hsize hi
  rw [size_assignInstr hi, hsize, List.filterMap_append, List.length_append, Nat.add_assoc]
  cases hr : f.resultOf? i <;> simp [hr]

/-- Assigning registers fails only if there are more values than registers. -/
theorem assign_eq_error {us : Array (List InstrId)} (hcon : f.Coherent) (hregs : c.regs = {})
    (h : assign f us c = .error e) :
    Reg.reservedId < (f.holders f.params f.inserted).length ∧ e = .tooManyRegisters := by
  simp only [assign, Except.bind_eq_error, Except.pure_ne_error, and_false, exists_false,
    or_false] at h
  rw [Func.holders, List.length_append]
  rcases h with hargs | ⟨c₁, hargs, hinstrs⟩
  · obtain ⟨before, ⟨n, v⟩, after, c₁, hsplit, hbefore, hstop⟩ :=
      Except.exists_of_foldlM_eq_error hargs
    have hget : ((List.range f.params.length).zip f.params)[before.length]? = some (n, v) := by
      simp [hsplit]
    obtain ⟨hn, hv⟩ := List.getElem?_zip_eq_some.1 hget
    obtain ⟨hlt, rfl⟩ := List.getElem?_eq_some_iff.1 hn
    obtain ⟨t, ht⟩ := hcon.param_arg hv
    obtain ⟨hfull, rfl⟩ := assignArg_eq_error (by simpa using ht) hstop
    have hsize : c₁.regs.types.size = before.length := by
      simpa [hregs] using size_assignArgs hbefore
    rw [List.length_range] at hlt
    exact ⟨by omega, rfl⟩
  · obtain ⟨before, i, after, c₂, hsplit, hbefore, hstop⟩ :=
      Except.exists_of_foldlM_eq_error hinstrs
    obtain ⟨b, hb⟩ := Func.mem_inserted.1 (show i ∈ f.inserted by simp [hsplit])
    obtain ⟨ins, hins⟩ : ∃ ins, f.instrs[i]? = some ins :=
      ⟨_, Array.getElem?_eq_getElem (Func.lt_instrs_of_mem hcon hb)⟩
    obtain ⟨hr, hfull, rfl⟩ := assignInstr_eq_error hins hstop
    have hres : f.resultOf? i = some ins.result := by simp [Func.resultOf?, hins, hr]
    have hsize : c₂.regs.types.size =
        f.params.length + (before.filterMap f.resultOf?).length := by
      simpa [size_assignArgs hargs, hregs] using size_assignInstrs hbefore
    rw [hsplit, List.filterMap_append, List.filterMap_cons_some hres, List.length_append,
      List.length_cons]
    exact ⟨by omega, rfl⟩

/-- Setting a context up for a function fails only if there are more values than registers. -/
theorem init_eq_error (hcon : f.Coherent) (ho : f.OperandsExist)
    (h : (init f).run c = .error e c') :
    Reg.reservedId < (f.holders f.params f.inserted).length ∧ e = .tooManyRegisters := by
  obtain ⟨us, hus⟩ := Func.exists_users hcon ho
  simp only [init, EStateM.run, EStateM.bind_eq_error, EStateM.modify_eq_ok] at h
  rcases h with h | ⟨_, c₁, rfl, h⟩
  · cases h
  rw [hus] at h
  simp only [EStateM.bind_eq_error, EStateM.get_ne_error, EStateM.get_eq_ok, false_or] at h
  obtain ⟨_, _, ⟨rfl, rfl⟩, h⟩ := h
  cases hassign : assign f us
      { c with func := some f, regs := {}, slots := {}, slotOf := #[] } with
  | error e' =>
    rw [hassign] at h
    obtain ⟨rfl, -⟩ := EStateM.throw_eq_error.1 h
    exact assign_eq_error hcon rfl hassign
  | ok c₂ =>
    rw [hassign] at h
    cases h

end Context

end Codegen
