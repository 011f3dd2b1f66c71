import Codegen.Proofs.Selection

/-!
# The table of operands

A row of the table lists what an operation demands of its operands. The last two columns of a phi
can be repeated, and the column for a position behind the end of the row is found by counting modulo
two. With the row written out as far as there are operands, making an instruction compares the
operands with the columns one by one. It succeeds exactly if none is left on either side and each
operand is of a kind that its column takes. The instruction then has the operands as they were
given, with the roles of the columns.

## Main definitions

* `X86.Opcode.row`: a row of the table with its last two columns repeated.
* `X86.Opcode.roleAt`: the role that the table fixes for a position.
* `X86.Opcode.Shape`: the operands that an operation takes.
* `X86.Opcode.registersAt`: the registers at the positions with certain roles.

## Main results

* `X86.Opcode.getElem?_row`: counting modulo two finds the column of the row that is written out.
* `X86.make_eq_ok_iff`: an instruction is made by going along a row.
* `X86.exists_make_iff`: the operands with which an instruction can be made.
* `X86.makeNumbered_enforces_table`: instructions are made exactly as the table says.
-/

namespace Codegen.X86

/-! ### Rows -/

/-- An operand of a kind that is taken. -/
def OperandSpec.Accepts (spec : OperandSpec) (o : Operand) : Prop := o.kind ∈ spec.kinds

instance (spec : OperandSpec) (o : Operand) : Decidable (spec.Accepts o) :=
  inferInstanceAs (Decidable (o.kind ∈ spec.kinds))

/-- A list that is repeated is read by counting modulo its length. -/
theorem getElem?_flatten_replicate {α : Type} (l : List α) (m k : Nat) :
    (List.replicate m l).flatten[k]? = if k < m * l.length then l[k % l.length]? else none := by
  induction m generalizing k with
  | zero => simp
  | succ m ih =>
    rw [List.replicate_succ, List.flatten_cons, List.getElem?_append]
    by_cases hk : k < l.length
    · rw [if_pos hk, Nat.mod_eq_of_lt hk, if_pos]
      exact Nat.lt_of_lt_of_le hk (Nat.le_mul_of_pos_left _ m.succ_pos)
    · have hle : l.length ≤ k := Nat.le_of_not_lt hk
      rw [if_neg hk, ih, ← Nat.mod_eq_sub_mod hle]
      refine if_congr ?_ rfl rfl
      rw [Nat.succ_mul]
      omega

namespace Opcode

variable {op : Opcode} {m k : Nat}

/-- What an operation demands of its operands if its last two columns are repeated `m` times more.
Most operations have a fixed number of columns. -/
def row (op : Opcode) (m : Nat) : List OperandSpec :=
  if op.variadic then op.specs ++ (List.replicate m (op.specs.drop (op.specs.length - 2))).flatten
  else op.specs

/-- The role that the table fixes for a position. -/
def roleAt (op : Opcode) (k : Nat) : Option Role := (op.row k)[k]?.map (·.role)

/-- Where columns can be repeated there are two of them. -/
theorem length_drop_specs (h : op.variadic = true) :
    (op.specs.drop (op.specs.length - 2)).length = 2 := by
  cases op <;> cases h
  rfl

theorem length_row (op : Opcode) (m : Nat) :
    (op.row m).length = op.specs.length + if op.variadic then 2 * m else 0 := by
  unfold row
  by_cases h : op.variadic = true
  · rw [if_pos h, if_pos h, List.length_append, List.length_flatten, List.map_replicate,
      length_drop_specs h, List.sum_replicate_nat, Nat.mul_comm]
  · rw [if_neg h, if_neg h, Nat.add_zero]

/-- An operation takes as many operands as one of its rows has columns. -/
theorem takes_iff {n : Nat} : op.takes n = true ↔ ∃ m, (op.row m).length = n := by
  simp only [takes, length_row]
  by_cases h : op.variadic = true
  · simp only [if_pos h, Bool.and_eq_true, decide_eq_true_eq, beq_iff_eq]
    exact ⟨fun ⟨hle, hmod⟩ => ⟨(n - op.specs.length) / 2, by omega⟩, fun ⟨m, hm⟩ => by omega⟩
  · simp only [if_neg h, beq_iff_eq, Nat.add_zero]
    exact ⟨fun hn => ⟨0, hn.symm⟩, fun ⟨_, hn⟩ => hn.symm⟩

/-- The column for a position in a row that is long enough. -/
theorem getElem?_row (hk : k < (op.row m).length) : (op.row m)[k]? = op.specAt k := by
  rw [length_row] at hk
  unfold row specAt
  by_cases h : op.variadic = true
  · have htwo := length_drop_specs h
    rw [if_pos h] at hk ⊢
    rw [List.getElem?_append]
    by_cases hlt : k < op.specs.length
    · rw [if_pos hlt, if_pos hlt]
    · -- Dropping all columns but two and counting modulo two is what the index does.
      rw [if_neg hlt, if_neg hlt, if_pos h, getElem?_flatten_replicate, htwo, if_pos (by omega),
        List.getElem?_drop]
  · rw [if_neg h, Nat.add_zero] at hk
    rw [if_neg h, if_pos hk]

theorem roleAt_eq (op : Opcode) (k : Nat) : op.roleAt k = (op.specAt k).map (·.role) := by
  unfold roleAt
  by_cases h : op.variadic = true
  · have htwo := length_drop_specs h
    rw [List.length_drop] at htwo
    rw [getElem?_row (by rw [length_row, if_pos h]; omega)]
  · rw [row, specAt, if_neg h, if_neg h]
    by_cases hk : k < op.specs.length
    · rw [if_pos hk]
    · rw [if_neg hk, List.getElem?_eq_none (Nat.le_of_not_lt hk)]

end Opcode

/-! ### Making an instruction -/

section Make

variable {op : Opcode} {os : List Operand}

/-- Operands get their roles from the columns from a position on, if each is of a kind that its
column takes. -/
theorem withRoles_eq_ok_iff {n : Nat} {columns : List OperandSpec} {r : List (Role × Operand)}
    (hlength : columns.length = os.length)
    (hcolumns : ∀ k < columns.length, op.specAt (n + k) = columns[k]?) :
    Instr.withRoles op n os = .ok r ↔
      List.Forall₂ OperandSpec.Accepts columns os ∧ r = (columns.map (·.role)).zip os := by
  induction os generalizing n columns r with
  | nil =>
    obtain rfl := List.length_eq_zero_iff.1 hlength
    simp [Instr.withRoles, eq_comm]
  | cons o os ih =>
    obtain ⟨spec, columns, rfl⟩ := List.exists_cons_of_length_eq_add_one hlength
    have hspec : op.specAt n = some spec := hcolumns 0 (Nat.zero_lt_succ _)
    have hrest : ∀ k < columns.length, op.specAt (n + 1 + k) = columns[k]? := fun k hk => by
      rw [Nat.add_assoc, Nat.add_comm 1 k]
      exact hcolumns (k + 1) (Nat.succ_lt_succ hk)
    have ih := fun r => ih (r := r) (Nat.succ.inj hlength) hrest
    rw [Instr.withRoles, hspec, List.forall₂_cons]
    by_cases hkind : o.kind ∈ spec.kinds
    · simp only [if_pos hkind, Except.bind_eq_ok, Except.pure_eq_ok, ih]
      constructor
      · rintro ⟨rest, ⟨hall, rfl⟩, rfl⟩
        exact ⟨⟨hkind, hall⟩, rfl⟩
      · rintro ⟨⟨-, hall⟩, rfl⟩
        exact ⟨_, ⟨hall, rfl⟩, rfl⟩
    · simp only [if_neg hkind, reduceCtorEq, false_iff]
      exact fun h => hkind h.1.1

/-- An instruction is made if the operands fit a row of the table, and gives them the roles of the
row. -/
theorem make_eq_ok_iff {ins : Instr} : Instr.make op os = .ok ins ↔
    ∃ m, List.Forall₂ OperandSpec.Accepts (op.row m) os ∧
      ins = ⟨op, ((op.row m).map (·.role)).zip os⟩ := by
  have hroles {m : Nat} {r : List (Role × Operand)} (hm : (op.row m).length = os.length) :
      Instr.withRoles op 0 os = .ok r ↔ List.Forall₂ OperandSpec.Accepts (op.row m) os ∧
        r = ((op.row m).map (·.role)).zip os :=
    withRoles_eq_ok_iff hm fun k hk => by rw [Nat.zero_add, Opcode.getElem?_row hk]
  simp only [Instr.make, ite_eq_iff, Except.bind_eq_ok, Except.throw_ne_ok, Except.pure_eq_ok,
    false_and, and_false, exists_false, false_or, Bool.not_eq_true', Bool.not_eq_false,
    Opcode.takes_iff]
  constructor
  · rintro ⟨⟨m, hm⟩, r, hr, rfl⟩
    obtain ⟨hall, rfl⟩ := (hroles hm).1 hr
    exact ⟨m, hall, rfl⟩
  · rintro ⟨m, hall, rfl⟩
    exact ⟨⟨m, hall.length_eq⟩, _, (hroles hall.length_eq).2 ⟨hall, rfl⟩, rfl⟩

end Make

/-! ### Shapes -/

/-- A register or an immediate. -/
def Operand.IsValue (o : Operand) : Prop := o.kind = .reg ∨ o.kind = .imm32

/-- The operands that an operation takes. A phi takes a register and then at least one pair of a
value and a label. Any other operation takes one operand for each column of the table. -/
def Opcode.Shape (op : Opcode) (os : List Operand) : Prop :=
  if op = .phi then
    ∃ (r : Reg) (incoming : List (Operand × Label)), incoming ≠ [] ∧
      (∀ pair ∈ incoming, pair.1.IsValue) ∧
      os = .reg r :: incoming.flatMap fun pair => [pair.1, .label pair.2]
  else List.Forall₂ OperandSpec.Accepts op.specs os

section Shape

variable {op : Opcode} {os : List Operand}

theorem accepts_output_iff {o : Operand} :
    OperandSpec.Accepts ⟨.output, [.reg]⟩ o ↔ ∃ r, o = .reg r := by
  cases o <;> simp [OperandSpec.Accepts, Operand.kind]

theorem accepts_value_iff {o : Operand} :
    OperandSpec.Accepts ⟨.input, [.reg, .imm32]⟩ o ↔ o.IsValue := by
  simp [OperandSpec.Accepts, Operand.IsValue]

theorem accepts_label_iff {o : Operand} :
    OperandSpec.Accepts ⟨.input, [.label]⟩ o ↔ ∃ l, o = .label l := by
  cases o <;> simp [OperandSpec.Accepts, Operand.kind]

/-- The repeated columns of a phi take pairs of a value and a label. -/
theorem forall₂_incoming_iff {m : Nat} :
    List.Forall₂ OperandSpec.Accepts
      (List.replicate m [⟨.input, [.reg, .imm32]⟩, ⟨.input, [.label]⟩]).flatten os ↔
    ∃ incoming : List (Operand × Label), incoming.length = m ∧
      (∀ pair ∈ incoming, pair.1.IsValue) ∧
      os = incoming.flatMap fun pair => [pair.1, .label pair.2] := by
  induction m generalizing os with
  | zero =>
    rw [List.replicate_zero, List.flatten_nil, List.forall₂_nil_left_iff]
    constructor
    · rintro rfl
      exact ⟨[], rfl, by simp, rfl⟩
    · rintro ⟨incoming, hlength, -, rfl⟩
      rw [List.length_eq_zero_iff.1 hlength, List.flatMap_nil]
  | succ m ih =>
    rw [List.replicate_succ, List.flatten_cons]
    constructor
    · rintro (_ | ⟨hvalue, _ | ⟨hlabel, hrest⟩⟩)
      obtain ⟨l, rfl⟩ := accepts_label_iff.1 hlabel
      obtain ⟨incoming, rfl, hall, rfl⟩ := ih.1 hrest
      exact ⟨(_, l) :: incoming, rfl,
        List.forall_mem_cons.2 ⟨accepts_value_iff.1 hvalue, hall⟩, rfl⟩
    · rintro ⟨incoming, hlength, hall, rfl⟩
      obtain ⟨⟨o, l⟩, incoming, rfl⟩ := List.exists_cons_of_length_eq_add_one hlength
      obtain ⟨hvalue, hall⟩ := List.forall_mem_cons.1 hall
      exact .cons (accepts_value_iff.2 hvalue) (.cons (accepts_label_iff.2 ⟨l, rfl⟩)
        (ih.2 ⟨incoming, Nat.succ.inj hlength, hall, rfl⟩))

theorem row_phi (m : Nat) : Opcode.phi.row m = ⟨.output, [.reg]⟩ ::
    (List.replicate (m + 1) [⟨.input, [.reg, .imm32]⟩, ⟨.input, [.label]⟩]).flatten := rfl

theorem Opcode.variadic_iff : op.variadic = true ↔ op = .phi := by
  cases op <;> simp [variadic]

/-- The operands that fit a row of the table. -/
theorem Opcode.shape_iff :
    op.Shape os ↔ ∃ m, List.Forall₂ OperandSpec.Accepts (op.row m) os := by
  unfold Shape
  by_cases hop : op = .phi
  · subst hop
    simp only [if_true, row_phi]
    constructor
    · -- The row has the columns of one pair already.
      rintro ⟨r, incoming, hne, hall, rfl⟩
      have hpos := List.length_pos_iff.2 hne
      exact ⟨incoming.length - 1, .cons (accepts_output_iff.2 ⟨r, rfl⟩)
        (forall₂_incoming_iff.2 ⟨incoming, by omega, hall, rfl⟩)⟩
    · rintro ⟨m, _ | ⟨hout, hrest⟩⟩
      obtain ⟨r, rfl⟩ := accepts_output_iff.1 hout
      obtain ⟨incoming, hlength, hall, rfl⟩ := forall₂_incoming_iff.1 hrest
      exact ⟨r, incoming, List.ne_nil_of_length_eq_add_one hlength, hall, rfl⟩
  · simp [hop, row, variadic_iff]

/-- An instruction is made just if the operands have the shape that its operation demands. -/
theorem exists_make_iff : (∃ ins, Instr.make op os = .ok ins) ↔ op.Shape os := by
  simp [Opcode.shape_iff, make_eq_ok_iff]

/-- A phi reads all operands but the first. -/
theorem roleAt_phi_succ (k : Nat) : Opcode.phi.roleAt (k + 1) = some .input := by
  have hlt : k < (k + 1 + 1) * 2 := by omega
  rw [Opcode.roleAt, row_phi, List.getElem?_cons_succ, getElem?_flatten_replicate]
  simp only [List.length_cons, List.length_nil, Nat.zero_add, Nat.reduceAdd, if_pos hlt]
  rcases Nat.mod_two_eq_zero_or_one k with hk | hk <;> rw [hk] <;> rfl

end Shape

/-! ### Registers that are read and written -/

/-- The register that an operand is. -/
def Operand.reg? : Operand → Option Reg
  | .reg r => some r
  | _ => none

/-- The registers among some operands at the positions to which the table gives one of some roles,
in the order of the operands. -/
def Opcode.registersAt (op : Opcode) (roles : List Role) (os : List Operand) : List Reg :=
  os.zipIdx.filterMap fun x => if ∃ role ∈ roles, op.roleAt x.2 = some role then x.1.reg? else none

section Registers

variable {op : Opcode} {os : List Operand} {roles : List Role}

theorem Opcode.mem_registersAt {r : Reg} : r ∈ op.registersAt roles os ↔
    ∃ k role, os[k]? = some (.reg r) ∧ op.roleAt k = some role ∧ role ∈ roles := by
  simp only [registersAt, List.mem_filterMap, Prod.exists, List.mem_zipIdx_iff_getElem?]
  constructor
  · rintro ⟨o, k, hk, ho⟩
    by_cases hrole : ∃ role ∈ roles, op.roleAt k = some role
    · obtain ⟨role, hmem, hrole⟩ := hrole
      rw [if_pos ⟨role, hmem, hrole⟩] at ho
      cases o with
      | reg q =>
        cases ho
        exact ⟨k, role, hk, hrole, hmem⟩
      | empty | imm32 | slot | label => cases ho
    · rw [if_neg hrole] at ho
      cases ho
  · rintro ⟨k, role, hk, hrole, hmem⟩
    exact ⟨.reg r, k, hk, if_pos ⟨role, hmem, hrole⟩⟩

/-- The operands of an instruction have the roles that the table fixes. -/
theorem Instr.Is.roleAt_eq {ins : Instr} (h : ins.Is op os) {k : Nat} {role : Role} {o : Operand}
    (hk : ins.operands[k]? = some (role, o)) : op.roleAt k = some role := by
  obtain ⟨spec, hspec, rfl, -⟩ := h.conforms.operand hk
  rw [Opcode.roleAt_eq, ← h.op_eq, hspec]
  rfl

theorem regs_cons (role : Role) (o : Operand) (operands : List (Role × Operand))
    (p : Role → Bool) : (Instr.mk op ((role, o) :: operands)).regs p =
      (if p role then o.reg?.toList else []) ++ (Instr.mk op operands).regs p := by
  cases o <;> by_cases h : p role = true <;> simp [Instr.regs, Operand.reg?, h]

/-- The registers among operands that have the roles of the positions from `n` on. -/
theorem regs_eq_filterMap_zipIdx {operands : List (Role × Operand)} {n : Nat} {p : Role → Bool}
    (hp : ∀ role, p role = true ↔ role ∈ roles)
    (hroles : ∀ k role o, operands[k]? = some (role, o) → op.roleAt (n + k) = some role) :
    (Instr.mk op operands).regs p = ((operands.map Prod.snd).zipIdx n).filterMap fun x =>
      if ∃ role ∈ roles, op.roleAt x.2 = some role then x.1.reg? else none := by
  induction operands generalizing n with
  | nil => rfl
  | cons operand operands ih =>
    obtain ⟨role, o⟩ := operand
    have hrole : op.roleAt n = some role := hroles 0 role o rfl
    have hrest := ih (n := n + 1) fun k role o hk => by
      rw [Nat.add_assoc, Nat.add_comm 1 k]
      exact hroles (k + 1) role o hk
    rw [regs_cons, hrest, List.map_cons, List.zipIdx_cons, List.filterMap_cons]
    simp only [hrole, Option.some.injEq, exists_eq_right', ← hp]
    by_cases h : p role = true
    · cases o.reg? <;> simp [h]
    · simp [h]

/-- The registers of an instruction with one of some roles. -/
theorem regs_eq_registersAt {ins : Instr} (h : ins.Is op os) {p : Role → Bool}
    (hp : ∀ role, p role = true ↔ role ∈ roles) : ins.regs p = op.registersAt roles os := by
  obtain rfl := h.op_eq
  rw [Opcode.registersAt, ← h.operands_eq]
  exact regs_eq_filterMap_zipIdx hp fun k role o hk => by rw [Nat.zero_add, h.roleAt_eq hk]

end Registers

/-- Instructions are made exactly as the table says, for any number of an operation and any list of
operands. An instruction is made just if the number stands for an operation and the operands have
its shape. It keeps the operands and their order and gives each of them the role that the table
fixes for its position. It reads the registers at positions for input and writes those at positions
for output, in the order of the operands; a register at a position for both is read and written. -/
theorem makeNumbered_enforces_table (n : Nat) (os : List Operand) :
    ((∃ ins, Instr.makeNumbered n os = .ok ins) ↔
      ∃ op, Opcode.numbered? n = some op ∧ op.Shape os) ∧
    ∀ ins, Instr.makeNumbered n os = .ok ins →
      Opcode.numbered? n = some ins.op ∧ ins.operands.map Prod.snd = os ∧
      (∀ k role o, ins.operands[k]? = some (role, o) → ins.op.roleAt k = some role) ∧
      ins.uses = ins.op.registersAt [.input, .inputOutput] os ∧
      ins.defs = ins.op.registersAt [.output, .inputOutput] os ∧
      ∀ k r, os[k]? = some (.reg r) → ins.op.roleAt k = some .inputOutput →
        r ∈ ins.uses ∧ r ∈ ins.defs := by
  unfold Instr.makeNumbered
  cases hop : Opcode.numbered? n with
  | none => simp
  | some op =>
    constructor
    · simp [exists_make_iff]
    · intro ins hmake
      have hins := make_eq_ok hmake
      obtain rfl := hins.op_eq
      have huses : ins.uses = ins.op.registersAt [.input, .inputOutput] os :=
        regs_eq_registersAt hins fun role => by cases role <;> simp [Role.reads]
      have hdefs : ins.defs = ins.op.registersAt [.output, .inputOutput] os :=
        regs_eq_registersAt hins fun role => by cases role <;> simp [Role.writes]
      refine ⟨rfl, hins.operands_eq, fun k role o hk => hins.roleAt_eq hk, huses, hdefs,
        fun k r hk hrole => ⟨?_, ?_⟩⟩
      · rw [huses]
        exact Opcode.mem_registersAt.2 ⟨k, .inputOutput, hk, hrole, by decide⟩
      · rw [hdefs]
        exact Opcode.mem_registersAt.2 ⟨k, .inputOutput, hk, hrole, by decide⟩

/-- A register, and two values with the labels of the blocks that they come from. -/
def samplePhi : List Operand := [.reg ⟨2⟩, .reg ⟨0⟩, .label 1, .imm32 3, .label 2]

theorem makeNumbered_enforces_table_samples :
    (∃ ins, Instr.makeNumbered 1 samplePhi = .ok ins ∧ ins.op = .phi ∧ ins.uses = [⟨0⟩] ∧
      ins.defs = [⟨2⟩]) ∧
    ∃ ins, Instr.makeNumbered 8 [.reg ⟨1⟩, .reg ⟨2⟩] = .ok ins ∧ ins.op = .addrr32 ∧
      ins.uses = [⟨1⟩, ⟨2⟩] ∧ ins.defs = [⟨1⟩] := by
  constructor
  · obtain ⟨hmade, hins⟩ := makeNumbered_enforces_table 1 samplePhi
    obtain ⟨ins, hmake⟩ := hmade.2 ⟨.phi, rfl, ⟨2⟩, [(.reg ⟨0⟩, 1), (.imm32 3, 2)], by simp,
      by simp [Operand.IsValue, Operand.kind], rfl⟩
    obtain ⟨hop, -, -, huses, hdefs, -⟩ := hins ins hmake
    have hop : ins.op = .phi := (Option.some.inj hop).symm
    rw [hop] at huses hdefs
    exact ⟨ins, hmake, hop, huses.trans (by decide), hdefs.trans (by decide)⟩
  · obtain ⟨hmade, hins⟩ := makeNumbered_enforces_table 8 [.reg ⟨1⟩, .reg ⟨2⟩]
    obtain ⟨ins, hmake⟩ := hmade.2 ⟨.addrr32, rfl, .cons (by decide) (.cons (by decide) .nil)⟩
    obtain ⟨hop, -, -, huses, hdefs, -⟩ := hins ins hmake
    have hop : ins.op = .addrr32 := (Option.some.inj hop).symm
    rw [hop] at huses hdefs
    exact ⟨ins, hmake, hop, huses.trans (by decide), hdefs.trans (by decide)⟩

end Codegen.X86
