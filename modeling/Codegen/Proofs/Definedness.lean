import Codegen.Proofs.Closed

/-!
# Registers are written before they are read

Control goes through a lowered function from one instruction to the next one behind it, and from a
branch to the start of the block that has the label. The registers that an instruction reads on such
a way were written on it before, or belong to arguments. This carries the order of definitions and
uses in blocks that dominate each other over to single instructions: conditions are compared where
they are used, so that the operands of a comparison are read later than the comparison stands, and
the registers that belong to comparisons and to addresses are never read.

## Main definitions

* `X86.Lowered.Next`, `X86.Lowered.Trail`: where control can go, and where it has come from.
* `X86.Instr.readsFrom`: the registers that an instruction reads when its block was entered from a
  label.
* `X86.Inside`: a place in the code of a block, reached by a way on which everything that is
  available there was written.

## Main results

* `X86.Inside.next`: control that goes on is inside a block again.
* `X86.reads_written`: what is read was written before.
-/

namespace Codegen.X86

variable {src : Source} {c : Context} {code : Lowered} {b : BlockId} {i j : InstrId} {v : ValueId}
  {op : Operation} {is : List Instr} {r : Reg}

/-! ### Ways through the code -/

/-- A place that control is at: an instruction, the label of its block and the label of the block
from which control came. -/
structure Site where
  label : Label
  prev : Option Label
  pos : Nat
deriving DecidableEq, Repr

/-- Where control can go from a place. Nothing is said about whether a condition holds. -/
inductive Lowered.Next (code : Lowered) (site : Site) : Site → Prop
  | fall {ins : Instr} (hins : code.instrs[site.pos]? = some ins) (hjmp : ins.op ≠ .jmp)
      (hret : ins.op ≠ .ret) : Next code site { site with pos := site.pos + 1 }
  | jump {ins : Instr} {range : BlockRange} (hins : code.instrs[site.pos]? = some ins)
      (hbranch : ins.isBranch = true) (hrange : range ∈ code.blocks)
      (hlabel : range.label ∈ ins.labels) :
      Next code site ⟨range.label, some site.label, range.start⟩

/-- The ways from the first block to a place, as the list of the places before, the last one first.
-/
inductive Lowered.Trail (code : Lowered) : Site → List Site → Prop
  | start {range : BlockRange} (h : code.blocks.head? = some range) :
      Trail code ⟨range.label, none, range.start⟩ []
  | next {site site' : Site} {past : List Site} (h : Trail code site past)
      (hnext : code.Next site site') : Trail code site' (site :: past)

/-- The registers that an instruction reads. A phi reads only the operand that belongs to the label
of the block from which control came. -/
def Instr.readsFrom (ins : Instr) (prev : Option Label) : List Reg :=
  if ins.op = .phi then
    match prev.bind fun l => incomingOf l (ins.operands.map Prod.snd).tail with
    | some (.reg r) => [r]
    | _ => []
  else ins.uses

/-- An instruction that stands at one of some places. -/
def Lowered.Visits (code : Lowered) (past : List Site) (ins : Instr) : Prop :=
  ∃ site ∈ past, code.instrs[site.pos]? = some ins

/-- A register that a context has given to an argument, or that an instruction at one of some places
writes. -/
def Defined (f : Func) (c : Context) (code : Lowered) (past : List Site) (r : Reg) : Prop :=
  (∃ v ∈ f.params, c.Gives f v r) ∨ ∃ ins, code.Visits past ins ∧ r ∈ ins.defs

/-! ### What instructions read and write -/

theorem mem_regs {ins : Instr} {p : Role → Bool} :
    r ∈ ins.regs p ↔ ∃ role, (role, Operand.reg r) ∈ ins.operands ∧ p role = true := by
  simp only [Instr.regs, List.mem_filterMap]
  constructor
  · rintro ⟨⟨role, o⟩, hmem, ho⟩
    cases o with
    | reg q =>
      obtain ⟨hp, rfl⟩ : p role = true ∧ q = r := by simpa using ho
      exact ⟨role, hmem, hp⟩
    | empty | imm32 | slot | label => cases ho
  · rintro ⟨role, hmem, hp⟩
    exact ⟨_, hmem, by simp [hp]⟩

section Is

variable {ins : Instr} {code : Opcode} {os : List Operand}

theorem Instr.Is.getElem?_operands (h : ins.Is code os) {k : Nat} :
    os[k]? = ins.operands[k]?.map Prod.snd := by
  rw [← h.operands_eq, List.getElem?_map]

/-- A register is read at a position that the operation reads. -/
theorem Instr.Is.mem_uses (h : ins.Is code os) (hr : r ∈ ins.uses) :
    ∃ k spec, os[k]? = some (.reg r) ∧ code.specAt k = some spec ∧ spec.role.reads = true := by
  obtain ⟨role, hmem, hreads⟩ := mem_regs.1 hr
  obtain ⟨k, hk⟩ := List.getElem?_of_mem hmem
  obtain ⟨spec, hspec, rfl, -⟩ := h.conforms.operand hk
  exact ⟨k, spec, by rw [h.getElem?_operands, hk]; rfl, h.op_eq ▸ hspec, hreads⟩

theorem Instr.Is.reg_mem (h : ins.Is code os) (hr : r ∈ ins.uses) : .reg r ∈ os := by
  obtain ⟨k, _, hk, -⟩ := h.mem_uses hr
  exact List.mem_of_getElem? hk

/-- A register at a position that the operation writes is written. -/
theorem Instr.Is.mem_defs (h : ins.Is code os) {k : Nat} {spec : OperandSpec}
    (hk : os[k]? = some (.reg r)) (hspec : code.specAt k = some spec)
    (hwrites : spec.role.writes = true) : r ∈ ins.defs := by
  rw [h.getElem?_operands] at hk
  obtain ⟨⟨role, o⟩, hget, rfl⟩ := Option.map_eq_some_iff.1 hk
  obtain ⟨spec', hspec', rfl, -⟩ := h.conforms.operand hget
  rw [h.op_eq, hspec] at hspec'
  cases hspec'
  exact mem_regs.2 ⟨_, List.mem_of_getElem? hget, hwrites⟩

/-- An operation that only writes its first operand reads none but the second one. -/
theorem Instr.Is.eq_of_mem_uses {o₁ o₂ : Operand} {k₁ k₂ : List OperandKind}
    (h : ins.Is code [o₁, o₂]) (hspecs : code.specs = [⟨.output, k₁⟩, ⟨.input, k₂⟩])
    (hr : r ∈ ins.uses) : o₂ = .reg r := by
  obtain ⟨k, spec, hk, hspec, hreads⟩ := h.mem_uses hr
  obtain _ | _ | k := k
  · simp only [Opcode.specAt, hspecs] at hspec
    cases hspec
    cases hreads
  · simpa using hk
  · simp at hk

end Is

/-- The values that an instruction reads: its operands, and for a branch those of its comparison. -/
inductive ReadBy (f : Func) (op : Operation) (v : ValueId) : Prop
  | operand (hv : v ∈ op.args) (hbr : ∀ l r, op ≠ .condBr v l r)
  | compared {cond x y : ValueId} {l r : BlockId} {j : InstrId} {p : Predicate} {t : TypeId}
      (hop : op = .condBr cond l r) (hcond : f.values[cond]? = some (.result j))
      (hj : f.opOf j = some (.icmp p t x y)) (hv : v ∈ [x, y])

/-- A register that is read by what was selected for an instruction stands for a value that the
instruction reads, or it was written by what was selected before. -/
theorem Selected.reads (h : Selected src b v op is) (hphi : op.isPhi = false) {k : Nat}
    {ins : Instr} (hk : is[k]? = some ins) (hr : r ∈ ins.uses) :
    (∃ w, Stands src w (.reg r) ∧ ReadBy src.func op w) ∨ ∃ m ∈ is.take k, r ∈ m.defs := by
  have hmem := List.mem_of_getElem? hk
  have hlabel {l : Label} {jump : Opcode} (hins : ins.Is jump [.label l]) : False := by
    simpa using hins.reg_mem hr
  have hread {w : ValueId} (hw : w ∈ op.args) (hbr : ∀ l r, op ≠ .condBr w l r)
      (ho : Stands src w (.reg r)) : (∃ w, Stands src w (.reg r) ∧ ReadBy src.func op w) ∨
        ∃ m ∈ is.take k, r ∈ m.defs :=
    .inl ⟨w, ho, .operand hw hbr⟩
  cases h with
  | phi => cases hphi
  | alloca | icmp => cases hmem
  | load _ _ _ hins =>
    obtain rfl := List.mem_singleton.1 hmem
    cases hins.eq_of_mem_uses rfl hr
  | store _ _ _ ho hins =>
    obtain rfl := List.mem_singleton.1 hmem
    obtain rfl := (List.mem_pair.1 (hins.reg_mem hr)).resolve_left (by simp)
    exact hread (by simp [Operation.args]) (by simp) ho
  | @binary _ _ x y _ _ o copy add _ _ hx ho hcopy hadd _ =>
    obtain _ | _ | k := k
    · obtain rfl : copy = ins := by simpa using hk
      cases hcopy.eq_of_mem_uses rfl hr
      exact hread (by simp [Operation.args]) (by simp) hx
    · obtain rfl : add = ins := by simpa using hk
      rcases List.mem_pair.1 (hadd.reg_mem hr) with he | rfl
      · cases he
        exact .inr ⟨copy, List.mem_cons_self, hcopy.mem_defs (k := 0) rfl rfl rfl⟩
      · exact hread (by simp [Operation.args]) (by simp) ho
    · simp at hk
  | br hins =>
    obtain rfl := List.mem_singleton.1 hmem
    exact (hlabel hins).elim
  | @condBr cond x y x' y' l r _ _ _ _ o compare taken other hcond hj _ hcmp hx ho hcompare htaken
      hother =>
    have hpair : x' ∈ [x, y] ∧ y' ∈ [x, y] := by cases hcmp <;> simp
    simp only [List.mem_cons, List.not_mem_nil, or_false] at hmem
    rcases hmem with rfl | rfl | rfl
    · rcases List.mem_pair.1 (hcompare.reg_mem hr) with he | rfl
      · cases he
        exact .inl ⟨x', hx, .compared rfl hcond hj hpair.1⟩
      · exact .inl ⟨y', ho, .compared rfl hcond hj hpair.2⟩
    · exact (hlabel htaken).elim
    · exact (hlabel hother).elim
  | @ret w o move m _ ho hmove hins =>
    rcases List.mem_pair.1 hmem with rfl | rfl
    · have hspecs : ∃ k₁ k₂, (o.form .movrr32 .movri32).specs = [⟨.output, k₁⟩, ⟨.input, k₂⟩] := by
        cases o <;> exact ⟨_, _, rfl⟩
      obtain ⟨k₁, k₂, hspecs⟩ := hspecs
      obtain rfl := hmove.eq_of_mem_uses hspecs hr
      exact hread (by simp [Operation.args]) (by simp) ho
    · simpa using hins.reg_mem hr

/-- A branch leads to the successors of the operation for which it was selected. -/
theorem Selected.exists_successor (h : Selected src b v op is) {ins : Instr} (hmem : ins ∈ is)
    (hbranch : ins.isBranch = true) {l : Label} (hl : l ∈ ins.labels) :
    ∃ s ∈ op.successors, l = s + 1 := by
  have htarget {s : BlockId} {jump : Opcode} (hins : ins.Is jump [.label (s + 1)]) : l = s + 1 := by
    simpa [hins.labels_eq, Operand.label?] using hl
  by_cases hterm : op.isTerminator = true
  · cases h with
    | br hins =>
      obtain rfl := List.mem_singleton.1 hmem
      exact ⟨_, List.mem_singleton_self _, htarget hins⟩
    | @condBr _ _ _ _ _ _ _ _ _ _ _ o _ _ _ _ _ _ _ _ _ hcompare htaken hother =>
      simp only [List.mem_cons, List.not_mem_nil, or_false] at hmem
      rcases hmem with rfl | rfl | rfl
      · cases o <;>
          simp [Instr.isBranch, hcompare.op_eq, Operand.form, Opcode.isBranch] at hbranch
      · exact ⟨_, List.mem_cons_self, htarget htaken⟩
      · exact ⟨_, List.mem_cons_of_mem _ (List.mem_singleton_self _), htarget hother⟩
    | @ret _ o _ _ _ _ hmove hins =>
      rcases List.mem_pair.1 hmem with rfl | rfl
      · cases o <;> simp [Instr.isBranch, hmove.op_eq, Operand.form, Opcode.isBranch] at hbranch
      · simp [Instr.isBranch, hins.op_eq, Opcode.isBranch] at hbranch
    | _ => cases hterm
  · have hnot := h.isBranch_eq_false (by simpa using hterm) ins hmem
    simp [hbranch] at hnot

theorem Selected.defs (h : Selected src b v op is) (hop : op.isCarried = true) :
    ∃ m ∈ is, src.func.regOf v ∈ m.defs := by
  cases h with
  | phi hins => exact ⟨_, List.mem_singleton_self _, hins.mem_defs (k := 0) rfl rfl rfl⟩
  | load _ _ _ hins => exact ⟨_, List.mem_singleton_self _, hins.mem_defs (k := 0) rfl rfl rfl⟩
  | binary _ _ _ _ hcopy => exact ⟨_, List.mem_cons_self, hcopy.mem_defs (k := 0) rfl rfl rfl⟩
  | _ => cases hop

/-! ### What was written on the way -/

/-- The result of an instruction was written at one of some places, if a register carries it. -/
def Written (src : Source) (code : Lowered) (past : List Site) (j : InstrId) : Prop :=
  ∀ ins op, src.func.instrs[j]? = some ins → ins.op = some op → op.isCarried = true →
    ∃ m, code.Visits past m ∧ src.func.regOf ins.result ∈ m.defs

/-- A lowered function together with what is known about its source. -/
structure Checked (src : Source) (c : Context) (code : Lowered) : Prop where
  consistent : src.func.Consistent
  wellFormed : src.func.WellFormed
  emitted : Emitted src c code

/-- How control came to a block: it is the entry, or control left a predecessor at whose end all
that is available was written. -/
def Entered (src : Source) (code : Lowered) (past : List Site) (b : BlockId) :
    Option Label → Prop
  | none => b = 0
  | some l => ∃ p, l = p + 1 ∧ src.func.Reachable p ∧ b ∈ src.func.succsOf p ∧
    ∀ j, src.func.Available p (src.func.instrsOf p) j → Written src code past j

/-- A place in the code of a block behind the first `k` instructions, all of which control has
visited on its way. -/
structure Inside (src : Source) (code : Lowered) (site : Site) (past : List Site) (b : BlockId)
    (codes : List (List Instr)) (k : Nat) : Prop where
  label : site.label = b + 1
  reachable : src.func.Reachable b
  entered : Entered src code past b site.prev
  selected : List.Forall₂ (SelectedFor src b) (src.func.instrsOf b) codes
  lt : k < codes.flatten.length
  getElem? : ∀ n m, codes.flatten[k + n]? = some m → code.instrs[site.pos + n]? = some m
  visits : ∀ m ∈ codes.flatten.take k, code.Visits past m

section Way

variable {site site' : Site} {past : List Site} {codes : List (List Instr)} {k : Nat}

theorem Lowered.Visits.cons {m : Instr} (h : code.Visits past m) :
    code.Visits (site :: past) m := by
  obtain ⟨s, hs, hm⟩ := h
  exact ⟨s, List.mem_cons_of_mem _ hs, hm⟩

theorem Written.cons (h : Written src code past j) : Written src code (site :: past) j := by
  intro ins op hins hop hcarried
  obtain ⟨m, hm, hdefs⟩ := h ins op hins hop hcarried
  exact ⟨m, hm.cons, hdefs⟩

theorem Entered.cons {prev : Option Label} (h : Entered src code past b prev) :
    Entered src code (site :: past) b prev := by
  cases prev with
  | none => exact h
  | some l =>
    obtain ⟨p, hl, hr, hs, hwritten⟩ := h
    exact ⟨p, hl, hr, hs, fun j hj => (hwritten j hj).cons⟩

theorem Lowered.Trail.exists_first (h : code.Trail site past) :
    ∃ range, code.blocks[0]? = some range := by
  induction h with
  | @start range h => exact ⟨range, by rw [← List.head?_eq_getElem?, h]⟩
  | next _ _ ih => exact ih

/-- Where an element of a list of lists stands: in one of the lists, behind those before it. -/
theorem exists_split_of_getElem? {α β : Type} {R : α → List β → Prop} {l : List α}
    {codes : List (List β)} (h : List.Forall₂ R l codes) {k : Nat} {m : β}
    (hk : codes.flatten[k]? = some m) :
    ∃ before a after codes₁ is n, l = before ++ a :: after ∧ List.Forall₂ R before codes₁ ∧
      R a is ∧ is[n]? = some m ∧ codes.flatten.take k = codes₁.flatten ++ is.take n := by
  induction h generalizing k with
  | nil => simp at hk
  | @cons a is l codes ha _ ih =>
    rw [List.flatten_cons, List.getElem?_append] at hk
    split at hk
    · next hlt =>
      refine ⟨[], a, l, [], is, k, rfl, .nil, ha, hk, ?_⟩
      rw [List.flatten_cons, List.take_append_of_le_length (Nat.le_of_lt hlt)]
      rfl
    · next hle =>
      obtain ⟨before, a', after, codes₁, is', n, rfl, hbefore, ha', hn, htake⟩ := ih hk
      refine ⟨a :: before, a', after, is :: codes₁, is', n, rfl, .cons ha hbefore, ha', hn, ?_⟩
      rw [List.flatten_cons, List.take_append, htake, List.take_of_length_le (by omega),
        List.flatten_cons, List.append_assoc]

theorem Inside.exists_instr (h : Inside src code site past b codes k) :
    ∃ ins, code.instrs[site.pos]? = some ins ∧ codes.flatten[k]? = some ins := by
  have hget := List.getElem?_eq_getElem h.lt
  exact ⟨_, h.getElem? 0 _ hget, hget⟩

/-- What is available in a block was written on the way to a place behind it. -/
theorem Inside.written (h : Inside src code site past b codes k) (hcon : src.func.Consistent)
    {before : List InstrId} {codes₁ : List (List Instr)}
    (hcodes : List.Forall₂ (SelectedFor src b) before codes₁)
    (htake : ∀ m ∈ codes₁.flatten, m ∈ codes.flatten.take k)
    (hj : src.func.Available b before j) : Written src code past j := by
  obtain ⟨d, hd, ⟨rfl, hmem⟩ | hdom⟩ := hj
  · intro ins op hins hop hcarried
    obtain ⟨is, his, ins', op', hins', hop', hsel⟩ := exists_mem_of_forall₂ hcodes hmem
    obtain rfl := Option.some.inj (hins.symm.trans hins')
    obtain rfl := Option.some.inj (hop.symm.trans hop')
    obtain ⟨m, hm, hdefs⟩ := hsel.defs hcarried
    exact ⟨m, h.visits m (htake m (List.mem_flatten.2 ⟨is, his, hm⟩)), hdefs⟩
  · have hstart : src.func.Available b [] j := ⟨d, hd, .inr hdom⟩
    have hentered := h.entered
    cases hprev : site.prev with
    | none =>
      rw [hprev] at hentered
      obtain rfl : b = 0 := hentered
      exact absurd hstart (Func.not_available_entry (h.reachable.lt_size hcon))
    | some l =>
      rw [hprev] at hentered
      obtain ⟨p, -, -, hs, hwritten⟩ := hentered
      exact hwritten j (hstart.of_edge hcon hs)

/-- A register that stands for a value is that of an argument or carries a result. -/
theorem stands_written (L : Checked src c code) {w : ValueId} (ho : Stands src w (.reg r))
    (hread : ∀ k, src.func.values[w]? = some (.result k) → Written src code past k ∧
      k ∈ src.func.inserted ∧ ∀ p t x y, src.func.opOf k ≠ some (.icmp p t x y)) :
    Defined src.func c code past r := by
  cases ho with
  | reg hw ha =>
    rcases hw.cases L.consistent.toNaming with ⟨n, t, hx⟩ | ⟨i, ins, -, hins, hres, rfl⟩
    · refine .inl ⟨w, List.mem_of_getElem? (L.consistent.arg_param hx), ?_⟩
      exact (L.emitted.ready.gives_regOf_iff hw).2 ⟨(Array.getElem?_eq_some_iff.1 hx).1, rfl⟩
    · have hx := L.consistent.result_value hins
      obtain ⟨hwritten, hin, hicmp⟩ := hread i hx
      obtain ⟨op, hop, hcarried⟩ := L.emitted.laid.isCarried hin hins hres (ha i hx) hicmp
      exact .inr (hwritten ins op hins hop hcarried)

/-- The operand of a phi for the block from which control came was written on the way. -/
theorem Inside.reads_phi (h : Inside src code site past b codes k) (L : Checked src c code)
    {t : TypeId} {incoming : List (ValueId × BlockId)} (hi : i ∈ src.func.instrsOf b)
    (hop : src.func.opOf i = some (.phi t incoming)) {operands : List (List Operand)}
    (hin : List.Forall₂ (ComesIn src incoming) (src.func.predsOf b) operands) {l : Label}
    (hprev : site.prev = some l) (hr : incomingOf l operands.flatten = some (.reg r)) :
    Defined src.func c code past r := by
  have hentered := h.entered
  rw [hprev] at hentered
  obtain ⟨p, rfl, hp, hs, hwritten⟩ := hentered
  obtain ⟨w, o, hfind, hstands, ho⟩ :=
    incomingOf_flatten hin (L.consistent.edges.mem_predsOf.2 hs)
  obtain rfl := Option.some.inj (hr.symm.trans ho)
  have hmem := List.mem_of_find?_eq_some hfind
  refine stands_written L hstands fun k hk => ?_
  have hlive := (L.wellFormed.phis b i hi t incoming hop).available_end L.consistent hmem hp hk
  have hkin := hlive.mem_inserted L.consistent
  exact ⟨hwritten k hlive, hkin, L.emitted.laid.not_icmp L.consistent
    (Func.mem_inserted.2 ⟨b, hi⟩) hop (List.mem_map_of_mem hmem) (fun _ _ => by simp) hk hkin⟩

/-- The operands of an instruction that is no phi were written on the way, and so were those of the
comparison that a branch makes. -/
theorem Inside.reads_operand (h : Inside src code site past b codes k) (L : Checked src c code)
    {before after : List InstrId} (hb : src.func.instrsOf b = before ++ i :: after)
    (hop : src.func.opOf i = some op) (hphi : op.isPhi = false)
    (hwritten : ∀ j, src.func.Available b before j → Written src code past j) {w : ValueId}
    (ho : Stands src w (.reg r)) (hread : ReadBy src.func op w) :
    Defined src.func c code past r := by
  refine stands_written L ho fun n hn => ?_
  cases hread with
  | operand hw hbr =>
    obtain ⟨hlive, hin⟩ :=
      L.emitted.laid.read L.consistent L.wellFormed h.reachable hb hop hphi hw hbr n hn
    exact ⟨hwritten n hlive, hin⟩
  | @compared cond _ _ _ _ j _ _ hcondBr hcond hj hw =>
    subst hcondBr
    -- The comparison need not stand in this block, but what it has read is still available.
    have hlive : src.func.Available b before j :=
      L.wellFormed.uses b h.reachable before i after _ hb hop hphi cond (by simp [Operation.args]) j
        hcond
    have hn' := hlive.operand L.consistent L.wellFormed h.reachable hb hj rfl hw hn
    have hin := hn'.mem_inserted L.consistent
    exact ⟨hwritten n hn', hin, L.emitted.laid.not_icmp L.consistent
      (hlive.mem_inserted L.consistent) hj hw (fun _ _ => by simp) hn hin⟩

/-- What is read at a place inside a block was written on the way. -/
theorem Inside.reads (h : Inside src code site past b codes k) (L : Checked src c code)
    {ins : Instr} (hins : code.instrs[site.pos]? = some ins) (hr : r ∈ ins.readsFrom site.prev) :
    Defined src.func c code past r := by
  obtain ⟨_, hins', hget⟩ := h.exists_instr
  obtain rfl := Option.some.inj (hins.symm.trans hins')
  obtain ⟨before, i, after, codes₁, is, n, hsplit, hbefore, ⟨sins, op, hsins, hsop, hsel⟩, hn,
    htake⟩ := exists_split_of_getElem? h.selected hget
  have hopOf : src.func.opOf i = some op := by simp [Func.opOf, hsins, hsop]
  have hwritten (j : InstrId) (hj : src.func.Available b before j) : Written src code past j :=
    h.written L.consistent hbefore (fun m hm => htake ▸ List.mem_append_left _ hm) hj
  cases hphi : op.isPhi with
  | true =>
    cases hsel with
    | @phi t incoming m operands hm _ hin =>
      obtain rfl := List.mem_singleton.1 (List.mem_of_getElem? hn)
      rw [Instr.readsFrom, if_pos hm.op_eq, hm.operands_eq, List.tail_cons] at hr
      split at hr
      · next q hq =>
        obtain rfl := List.mem_singleton.1 hr
        obtain ⟨l, hprev, hof⟩ := Option.bind_eq_some_iff.1 hq
        exact h.reads_phi L (by simp [hsplit]) hopOf hin hprev hof
      · cases hr
    | _ => cases hphi
  | false =>
    have hnot := hsel.isPhi_eq_false hphi ins (List.mem_of_getElem? hn)
    rw [Instr.readsFrom, if_neg (by simpa [Instr.isPhi] using hnot)] at hr
    rcases hsel.reads hphi hn hr with ⟨w, ho, hread⟩ | ⟨m, hm, hdefs⟩
    · exact h.reads_operand L hsplit hopOf hphi hwritten ho hread
    · exact .inr ⟨m, h.visits m (htake ▸ List.mem_append_right _ hm), hdefs⟩

/-! ### Going on -/

/-- Control that comes to a block is inside it. -/
theorem inside_start (L : Checked src c code) {range : BlockRange} {prev : Option Label}
    (hr : src.func.Reachable b) (hrange : code.blocks[b]? = some range)
    (hentered : Entered src code past b prev) :
    ∃ codes, Inside src code ⟨range.label, prev, range.start⟩ past b codes 0 := by
  obtain ⟨hlt, codes, hcodes, hslice⟩ := L.emitted.slice_eq hrange
  obtain ⟨ins, hlast, -⟩ := (delimited_flatten (L.wellFormed.shaped b hlt) hcodes).last
  refine ⟨codes, L.emitted.label_eq hrange, hr, hentered, hcodes, ?_, fun n m hm => ?_, by simp⟩
  · exact List.length_pos_of_mem (List.mem_of_getLast? hlast)
  · rw [Nat.zero_add, ← hslice, Lowered.slice, List.getElem?_take] at hm
    split at hm
    · simpa using hm
    · cases hm

/-- The instruction behind one that does not leave the block is in the same block. -/
theorem Inside.fall (h : Inside src code site past b codes k) (L : Checked src c code) {ins : Instr}
    (hins : code.instrs[site.pos]? = some ins) (hjmp : ins.op ≠ .jmp) (hret : ins.op ≠ .ret) :
    Inside src code { site with pos := site.pos + 1 } (site :: past) b codes (k + 1) := by
  obtain ⟨_, hins', hget⟩ := h.exists_instr
  obtain rfl := Option.some.inj (hins.symm.trans hins')
  have hshaped := L.wellFormed.shaped b (h.reachable.lt_size L.consistent)
  obtain ⟨last, hlast, hop⟩ := (delimited_flatten hshaped h.selected).last
  refine ⟨h.label, h.reachable, h.entered.cons, h.selected, ?_, fun n m hm => ?_, fun m hm => ?_⟩
  · have hne : k + 1 ≠ codes.flatten.length := by
      intro hk
      rw [List.getLast?_eq_getElem?, ← hk, Nat.add_sub_cancel, hget] at hlast
      cases hlast
      exact hop.elim hjmp hret
    have := h.lt
    omega
  · rw [Nat.add_assoc, Nat.add_comm 1 n] at hm
    have := h.getElem? (n + 1) m hm
    rwa [Nat.add_comm n 1, ← Nat.add_assoc] at this
  · rw [List.take_add_one, hget] at hm
    rcases List.mem_append.1 hm with hm | hm
    · exact (h.visits m hm).cons
    · obtain rfl : m = ins := by simpa using hm
      exact ⟨site, List.mem_cons_self, hins⟩

/-- A branch leads to a successor, and all that is available at the end of the block was written. -/
theorem Inside.jump (h : Inside src code site past b codes k) (L : Checked src c code) {ins : Instr}
    (hins : code.instrs[site.pos]? = some ins) (hbranch : ins.isBranch = true) {l : Label}
    (hl : l ∈ ins.labels) :
    ∃ s, l = s + 1 ∧ src.func.Reachable s ∧
      Entered src code (site :: past) s (some site.label) := by
  obtain ⟨_, hins', hget⟩ := h.exists_instr
  obtain rfl := Option.some.inj (hins.symm.trans hins')
  obtain ⟨before, i, after, codes₁, is, n, hsplit, hbefore, ⟨sins, op, hsins, hsop, hsel⟩, hn,
    htake⟩ := exists_split_of_getElem? h.selected hget
  have hopOf : src.func.opOf i = some op := by simp [Func.opOf, hsins, hsop]
  have hterm : op.isTerminator = true := by
    by_contra hterm
    have hnot := hsel.isBranch_eq_false (by simpa using hterm) ins (List.mem_of_getElem? hn)
    simp [hbranch] at hnot
  obtain ⟨s, hs, rfl⟩ := hsel.exists_successor (List.mem_of_getElem? hn) hbranch hl
  have hedge : s ∈ src.func.succsOf b :=
    L.consistent.mem_succsOf.2 ⟨i, by simp [hsplit], op, hopOf, hs⟩
  refine ⟨s, rfl, h.reachable.step hedge, b, h.label, h.reachable, hedge, fun j hj => ?_⟩
  have hshaped := L.wellFormed.shaped b (h.reachable.lt_size L.consistent)
  obtain rfl : after = [] := (hshaped.terminates_iff hsplit).1 ⟨op, hopOf, hterm⟩
  rw [hsplit, Func.available_append fun i hi => L.consistent.mem_instrsOf.1 (by simp_all)] at hj
  rcases hj with hj | hj
  · exact (h.written L.consistent hbefore (fun m hm => htake ▸ List.mem_append_left _ hm) hj).cons
  · -- The branch itself carries no result.
    obtain rfl := List.mem_singleton.1 hj
    intro jins jop hjins hjop hcarried
    obtain rfl := Option.some.inj (hsins.symm.trans hjins)
    obtain rfl := Option.some.inj (hsop.symm.trans hjop)
    cases op <;> cases hterm <;> cases hcarried

/-- Control that goes on from a place inside a block is inside a block again. -/
theorem Inside.next (h : Inside src code site past b codes k) (L : Checked src c code)
    (hnext : code.Next site site') :
    ∃ b' codes' k', Inside src code site' (site :: past) b' codes' k' := by
  cases hnext with
  | fall hins hjmp hret => exact ⟨b, codes, k + 1, h.fall L hins hjmp hret⟩
  | jump hins hbranch hrange hlabel =>
    obtain ⟨s, hs, hreach, hentered⟩ := h.jump L hins hbranch hlabel
    obtain ⟨s', hget⟩ := List.getElem?_of_mem hrange
    obtain rfl : s' = s := Nat.succ.inj ((L.emitted.label_eq hget).symm.trans hs)
    obtain ⟨codes', hinside⟩ := inside_start L hreach hget hentered
    exact ⟨s', codes', 0, hinside⟩

/-- Every way from the first block leads to a place inside a block. -/
theorem inside_of_trail (L : Checked src c code) (htrail : code.Trail site past) :
    ∃ b codes k, Inside src code site past b codes k := by
  induction htrail with
  | @start range h =>
    have hget : code.blocks[0]? = some range := by rw [← List.head?_eq_getElem?, h]
    have hentered : Entered src code [] 0 none := rfl
    obtain ⟨codes, hinside⟩ := inside_start L (.entry (L.emitted.slice_eq hget).1) hget hentered
    exact ⟨0, codes, 0, hinside⟩
  | next _ hnext ih =>
    obtain ⟨b, codes, k, hinside⟩ := ih
    exact hinside.next L hnext

end Way

/-- On every way through a lowered function that was checked, control is always at an instruction,
and each register that is read there belongs to an argument or was written by an instruction
earlier on the way. -/
theorem reads_written {m m' : Compiler} (hbuilt : src.func.Built)
    (hcheck : src.func.check src.types = .ok ())
    (hcompile : Compiler.compile src m = .ok code m') {site : Site} {past : List Site}
    (htrail : code.Trail site past) :
    ∃ ins, code.instrs[site.pos]? = some ins ∧
      ∀ r ∈ ins.readsFrom site.prev, Defined src.func m'.context code past r := by
  have hcon := hbuilt.consistent
  have he := emitted_of_compile hcon hcompile
  obtain ⟨range, hfirst⟩ := htrail.exists_first
  have hbody : src.func.isDeclaration = false := by
    simpa [Func.isDeclaration] using Nat.ne_of_gt (he.slice_eq hfirst).1
  have hwf := Func.wellFormed_of_check hcon (Func.operandsExist_of_users he.ready.users) hcheck
    hbody
  have L : Checked src m'.context code := ⟨hcon, hwf, he⟩
  obtain ⟨b, codes, k, hinside⟩ := inside_of_trail L htrail
  obtain ⟨ins, hins, -⟩ := hinside.exists_instr
  exact ⟨ins, hins, fun r hr => hinside.reads L hins hr⟩

/-- The sample function stores its argument, goes to its loop, takes the phi of the loop from the
argument and compares it. -/
theorem reads_written_sample :
    Source.sample.func.Built ∧ Source.sample.func.check Source.sample.types = .ok () ∧
    ∃ code m', Compiler.compile Source.sample {} = .ok code m' ∧
      code.Trail ⟨2, some 1, 3⟩ [⟨2, some 1, 2⟩, ⟨1, none, 1⟩, ⟨1, none, 0⟩] ∧
      ∃ ins r, code.instrs[3]? = some ins ∧ ins.readsFrom (some 1) = [r] ∧
        Defined Source.sample.func m'.context code
          [⟨2, some 1, 2⟩, ⟨1, none, 1⟩, ⟨1, none, 0⟩] r := by
  refine ⟨Source.built_sample, Source.check_sample, ?_⟩
  have hlowers : EStateM.gives (fun code : Lowered =>
      decide (code.blocks.head?.map (fun range => (range.label, range.start)) = some (1, 0)) &&
      code.blocks.any (fun range => decide (range.label = 2 ∧ range.start = 2)) &&
      decide (code.instrs[0]?.map (·.op) = some .movmr32) &&
      decide (code.instrs[1]?.map (fun ins => (ins.isBranch, ins.labels)) = some (true, [2])) &&
      decide (code.instrs[2]?.map (·.op) = some .phi) &&
      decide (code.instrs[3]?.map (·.readsFrom (some 1)) = some [Reg.virtual 2]))
      (Compiler.compile Source.sample {}) = true := by decide +kernel
  obtain ⟨code, m', hcompile, hcode⟩ := EStateM.eq_ok_of_gives hlowers
  simp only [Bool.and_eq_true, decide_eq_true_eq, List.any_eq_true, Option.map_eq_some_iff,
    Prod.mk.injEq] at hcode
  obtain ⟨⟨⟨⟨⟨⟨first, hfirst, hlabel, hstart⟩, ⟨loop, hloop, hlabel', hstart'⟩⟩, store, hstore,
    hop⟩, jump, hjump, hbranch, htarget⟩, phi, hphi, hop'⟩, compare, hcompare, hreads⟩ := hcode
  have htrail₀ : code.Trail ⟨1, none, 0⟩ [] := hlabel ▸ hstart ▸ .start hfirst
  have htrail₁ := htrail₀.next (.fall hstore (by simp [hop]) (by simp [hop]))
  have htrail₂ := htrail₁.next (.jump hjump hbranch hloop (by simp [htarget, hlabel']))
  rw [hlabel', hstart'] at htrail₂
  have htrail₃ := htrail₂.next (.fall hphi (by simp [hop']) (by simp [hop']))
  obtain ⟨ins, hins, hall⟩ := reads_written Source.built_sample Source.check_sample hcompile
    htrail₃
  obtain rfl := Option.some.inj (hcompare.symm.trans hins)
  exact ⟨code, m', hcompile, htrail₃, compare, _, hcompare, hreads, hall _ (by simp [hreads])⟩

end Codegen.X86
