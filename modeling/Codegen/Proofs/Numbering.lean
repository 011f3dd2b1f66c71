import Codegen.Proofs.Importing

/-!
# The numbers of what is imported

The first pass of an import adds all blocks and all instructions of a function, so that the second
one finds the values and blocks that come later. What the first pass leaves is known exactly: blocks
and instructions are numbered in the order of the text, the results are the values behind the
arguments, and the scope has one entry for each name.

## Main definitions

* `Llvm.Line`, `Llvm.Func.lines`: the instructions and terminators of a function with their blocks.
* `Codegen.Func.outline`: a function with blocks and blank instructions.
* `Llvm.scopeAfter`, `Llvm.pendingAfter`: what the first pass gives for some lines.

## Main results

* `Llvm.declareBlocks_eq_ok`: what the first pass leaves.
-/

namespace Codegen

/-! ### Lists in order -/

section Keys

variable {α : Type} {key : α → Nat} {l : List α} {n : Nat}

/-- A list in the order of its keys, with those of the largest key put apart. -/
theorem filter_lt_append_filter_eq (hl : l.Pairwise (key · ≤ key ·))
    (hlt : ∀ x ∈ l, key x < n + 1) :
    l.filter (key · < n) ++ l.filter (key · = n) = l := by
  induction l with
  | nil => rfl
  | cons x l ih =>
    obtain ⟨hx, hl⟩ := List.pairwise_cons.1 hl
    obtain ⟨hxn, hlt⟩ := List.forall_mem_cons.1 hlt
    by_cases hlast : key x < n
    · have hne : key x ≠ n := Nat.ne_of_lt hlast
      rw [List.filter_cons_of_pos (by simpa using hlast),
        List.filter_cons_of_neg (by simpa using hne), List.cons_append, ih hl hlt]
    · -- All keys from here on are the largest one.
      have hall : ∀ y ∈ x :: l, key y = n := by
        refine List.forall_mem_cons.2 ⟨by omega, fun y hy => ?_⟩
        have hle := hx y hy
        have hyn := hlt y hy
        omega
      rw [List.filter_eq_nil_iff.2 fun y hy => by simp [hall y hy],
        List.filter_eq_self.2 fun y hy => by simp [hall y hy], List.nil_append]

/-- A list in the order of its keys is put together from the parts with one key each. -/
theorem flatMap_filter_key (hl : l.Pairwise (key · ≤ key ·)) (hlt : ∀ x ∈ l, key x < n) :
    (List.range n).flatMap (fun k => l.filter (key · = k)) = l := by
  induction n generalizing l with
  | zero =>
    cases l with
    | nil => rfl
    | cons x l => exact absurd (hlt x List.mem_cons_self) (Nat.not_lt_zero _)
  | succ n ih =>
    have hlow : (List.range n).flatMap (fun k => l.filter (key · = k)) = l.filter (key · < n) := by
      rw [← ih (hl.filter _) fun x hx => by simpa using (List.mem_filter.1 hx).2]
      refine List.flatMap_congr fun k hk => ?_
      rw [List.filter_filter]
      refine List.filter_congr fun x _ => ?_
      have hkn := List.mem_range.1 hk
      by_cases hxk : key x = k <;> simp [hxk, hkn]
    rw [List.range_succ, List.flatMap_append, hlow, List.flatMap_singleton,
      filter_lt_append_filter_eq hl hlt]

/-- The different elements of a list in order are the numbers that are in it. -/
theorem eraseDups_eq_filter_range {l : List Nat} (hl : l.Pairwise (· ≤ ·)) (hlt : ∀ x ∈ l, x < n) :
    l.eraseDups = (List.range n).filter (· ∈ l) := by
  have hsorted : l.eraseDups.Pairwise (· < ·) := by
    clear hlt
    induction l using List.reverseRecOn with
    | nil => exact .nil
    | append_singleton l x ih =>
      obtain ⟨hl, -, hx⟩ := List.pairwise_append.1 hl
      rw [Func.eraseDups_concat, Func.addOnce]
      split
      · exact ih hl
      · next hnew =>
        refine List.pairwise_append.2 ⟨ih hl, List.pairwise_singleton _ _, fun y hy z hz => ?_⟩
        obtain rfl := List.mem_singleton.1 hz
        have hle := hx y (List.mem_eraseDups.1 hy) z List.mem_cons_self
        exact Nat.lt_of_le_of_ne hle fun heq => hnew (heq ▸ hy)
  refine hsorted.eq_of_mem_iff (List.pairwise_lt_range.filter _) fun x => ?_
  rw [List.mem_eraseDups, List.mem_filter, List.mem_range, decide_eq_true_iff]
  exact ⟨fun hx => ⟨hlt x hx, hx⟩, fun hx => hx.2⟩

end Keys

/-! ### Functions without operations -/

namespace Func

variable {f : Func} {names : List String} {name : String} {count : Nat}

/-- The function with some empty blocks and some blank instructions. -/
def outline (f : Func) (names : List String) (count : Nat) : Func :=
  { f with
    blocks := (names.map fun name => { name }).toArray
    instrs := ((List.range count).map fun i => { result := f.values.size + i }).toArray
    values := f.values ++ ((List.range count).map Value.result).toArray }

theorem addBlock_outline : (f.outline names count).addBlock name =
    (names.length, f.outline (names ++ [name]) count) := by
  simp [addBlock, outline]

theorem addInstr_outline : (f.outline names count).addInstr =
    (count, f.outline names (count + 1)) := by
  simp [addInstr, outline, List.range_succ]

theorem outline_zero (hblocks : f.blocks = #[]) (hinstrs : f.instrs = #[]) :
    f.outline [] 0 = f := by
  simp [outline, ← hblocks, ← hinstrs]

theorem getElem?_instrs_outline {i : InstrId} (hi : i < count) :
    (f.outline names count).instrs[i]? = some { result := f.values.size + i } := by
  simp [outline, hi]

theorem names_outline : (f.outline names count).names = names := by
  simp [Func.names, outline, Function.comp_def]

/-- Nothing is inserted into a function that has no operations. -/
theorem exists_traced_outline {m m' : Module} {sig : TypeId} {title : String}
    (h : m.addFunc title sig = .ok (f, m')) (names : List String) (count : Nat) :
    ∃ steps, (f.outline names count).Traced steps ∧ insertions steps = [] := by
  induction count with
  | zero =>
    induction names using List.reverseRecOn with
    | nil =>
      obtain ⟨hblocks, hinstrs⟩ := new_blocks h
      exact ⟨[], by rw [outline_zero hblocks hinstrs]; exact .new h, rfl⟩
    | append_singleton names name ih =>
      obtain ⟨steps, hsteps, hlog⟩ := ih
      have hblock := hsteps.block name
      rw [addBlock_outline] at hblock
      exact ⟨_, hblock, by simpa [insertions] using hlog⟩
  | succ count ih =>
    obtain ⟨steps, hsteps, hlog⟩ := ih
    have hinstr := hsteps.instr
    rw [addInstr_outline] at hinstr
    exact ⟨_, hinstr, by simpa [insertions] using hlog⟩

end Func

namespace Llvm

/-! ### Lines -/

/-- An instruction or a terminator of a function. -/
structure Line where
  /-- The number of its block. -/
  block : Nat
  /-- The name of its block. -/
  blockName : String
  /-- The name of its result. -/
  result : Option Name
  /-- Its operation. -/
  source : InstOp ⊕ Terminator

/-- The line of an instruction of a block. -/
def Inst.line (b : Nat) (name : String) (inst : Inst) : Line :=
  ⟨b, name, inst.result, .inl inst.op⟩

/-- The line of a terminator of a block. -/
def Terminator.line (b : Nat) (name : String) (t : Terminator) : Line := ⟨b, name, none, .inr t⟩

/-- The lines of the block with a number. -/
def Block.lines (blk : Block) (b : Nat) : List Line :=
  blk.insts.map (·.line b blk.name.shown) ++ blk.term.toList.map (·.line b blk.name.shown)

/-- The lines of some blocks that are numbered from a number on. -/
def linesFrom : Nat → List Block → List Line
  | _, [] => []
  | b, blk :: rest => blk.lines b ++ linesFrom (b + 1) rest

/-- The lines of a function in the order of the text. -/
def Func.lines (f : Func) : List Line := linesFrom 0 f.blocks

section Order

variable {blk : Block} {blks : List Block} {b k : Nat} {l : Line}

theorem block_of_mem_lines (h : l ∈ blk.lines b) : l.block = b := by
  rcases List.mem_append.1 h with h | h
  all_goals
    obtain ⟨_, -, rfl⟩ := List.mem_map.1 h
    rfl

theorem block_bounds (h : l ∈ linesFrom b blks) : b ≤ l.block ∧ l.block < b + blks.length := by
  induction blks generalizing b with
  | nil => cases h
  | cons blk blks ih =>
    rw [List.length_cons]
    rcases List.mem_append.1 h with h | h
    · have hb := block_of_mem_lines h
      omega
    · have hb := ih h
      omega

/-- Lines are in the order of their blocks. -/
theorem pairwise_linesFrom (b : Nat) (blks : List Block) :
    (linesFrom b blks).Pairwise (·.block ≤ ·.block) := by
  induction blks generalizing b with
  | nil => exact .nil
  | cons blk blks ih =>
    refine List.pairwise_append.2 ⟨?_, ih (b + 1), fun l hl l' hl' => ?_⟩
    · refine List.pairwise_of_forall_mem_list fun l hl l' hl' => ?_
      rw [block_of_mem_lines hl, block_of_mem_lines hl']
    · have hle := (block_bounds hl').1
      rw [block_of_mem_lines hl]
      omega

/-- The lines with the number of a block are its own. -/
theorem filter_linesFrom (h : blks[k]? = some blk) :
    (linesFrom b blks).filter (·.block = b + k) = blk.lines (b + k) := by
  induction blks generalizing b k with
  | nil => simp at h
  | cons blk' blks ih =>
    rw [linesFrom, List.filter_append]
    cases k with
    | zero =>
      obtain rfl : blk' = blk := by simpa using h
      have hself : (blk'.lines b).filter (·.block = b + 0) = blk'.lines b :=
        List.filter_eq_self.2 fun l hl => by simp [block_of_mem_lines hl]
      have hrest : (linesFrom (b + 1) blks).filter (·.block = b + 0) = [] := by
        refine List.filter_eq_nil_iff.2 fun l hl => ?_
        have hle := (block_bounds hl).1
        simp only [decide_eq_true_eq]
        omega
      rw [hself, hrest, List.append_nil, Nat.add_zero]
    | succ k =>
      have hself : (blk'.lines b).filter (·.block = b + (k + 1)) = [] :=
        List.filter_eq_nil_iff.2 fun l hl => by simp [block_of_mem_lines hl]
      have hstep : b + (k + 1) = b + 1 + k := by omega
      rw [hself, List.nil_append, hstep]
      exact ih (by simpa using h)

end Order

/-- The scope after some blocks and lines, if the results are numbered from a number on. -/
def scopeAfter (params : List (Name × ValueId)) (base : ValueId) (blocks : List Name)
    (lines : List Line) : Scope where
  values := params ++ lines.zipIdx.filterMap fun l => l.1.result.map (·, base + l.2)
  blocks := blocks.zipIdx

/-- The instructions that some lines make. -/
def pendingAfter (lines : List Line) : List Pending :=
  lines.zipIdx.map fun l => ⟨l.2, l.1.block, l.1.blockName, l.1.source⟩

variable {params : List (Name × ValueId)} {base : ValueId} {blocks : List Name} {lines : List Line}
  {l : Line} {f₀ : Codegen.Func} {types : TypeTable} {names : List String} {b : BlockId}
  {acc : Scope × List Pending} {s' : Importer} {name : String}

theorem pendingAfter_concat : pendingAfter (lines ++ [l]) =
    pendingAfter lines ++ [⟨lines.length, l.block, l.blockName, l.source⟩] := by
  simp [pendingAfter, List.zipIdx_append]

/-! ### The first pass -/

theorem addInstr_outline {count : Nat} :
    addInstr ⟨types, f₀.outline names count⟩ =
      .ok (count, f₀.values.size + count) ⟨types, f₀.outline names (count + 1)⟩ := by
  have hins : (f₀.outline names (count + 1)).instr count =
      .ok { result := f₀.values.size + count } := by
    simp [Codegen.Func.instr, Codegen.Func.getElem?_instrs_outline (Nat.lt_succ_self count)]
  refine EStateM.bind_eq_ok.2 ⟨_, _, EStateM.get_eq_ok.2 ⟨rfl, rfl⟩, ?_⟩
  simp only [Codegen.Func.addInstr_outline, hins]
  rfl

theorem addBlock_outline {count : Nat} :
    addBlock name ⟨types, f₀.outline names count⟩ =
      .ok names.length ⟨types, f₀.outline (names ++ [name]) count⟩ := by
  refine EStateM.bind_eq_ok.2 ⟨_, _, EStateM.get_eq_ok.2 ⟨rfl, rfl⟩, ?_⟩
  simp only [Codegen.Func.addBlock_outline]
  rfl

/-- An instruction makes its line. -/
theorem declareInst_outline (inst : Inst) :
    declareInst b name (scopeAfter params f₀.values.size blocks lines, pendingAfter lines) inst
        ⟨types, f₀.outline names lines.length⟩ =
      .ok (scopeAfter params f₀.values.size blocks (lines ++ [inst.line b name]),
          pendingAfter (lines ++ [inst.line b name]))
        ⟨types, f₀.outline names (lines ++ [inst.line b name]).length⟩ := by
  refine EStateM.bind_eq_ok.2 ⟨_, _, addInstr_outline, EStateM.pure_eq_ok.2 ⟨?_, by simp⟩⟩
  rw [pendingAfter_concat]
  cases hresult : inst.result <;>
    simp [scopeAfter, Inst.line, hresult, List.zipIdx_append]

/-- The instructions of a block make their lines one after the other. -/
theorem declareInsts_outline (insts : List Inst) :
    insts.foldlM (declareInst b name)
        (scopeAfter params f₀.values.size blocks lines, pendingAfter lines)
        ⟨types, f₀.outline names lines.length⟩ =
      .ok (scopeAfter params f₀.values.size blocks (lines ++ insts.map (·.line b name)),
          pendingAfter (lines ++ insts.map (·.line b name)))
        ⟨types, f₀.outline names (lines ++ insts.map (·.line b name)).length⟩ := by
  induction insts generalizing lines with
  | nil => simp [pure, EStateM.pure]
  | cons inst insts ih =>
    rw [List.foldlM_cons]
    refine EStateM.bind_eq_ok.2 ⟨_, _, declareInst_outline inst, ?_⟩
    rw [ih, List.map_cons, List.append_assoc, List.singleton_append]

/-- A block with a terminator makes its lines, and no other block is accepted. -/
theorem declareBlock_eq_ok {blk : Block}
    (h : declareBlock (scopeAfter params f₀.values.size blocks lines, pendingAfter lines) blk
      ⟨types, f₀.outline (blocks.map (·.shown)) lines.length⟩ = .ok acc s') :
    (∃ t, blk.term = some t) ∧
      acc = (scopeAfter params f₀.values.size (blocks ++ [blk.name])
          (lines ++ blk.lines blocks.length), pendingAfter (lines ++ blk.lines blocks.length)) ∧
      s' = ⟨types, f₀.outline ((blocks ++ [blk.name]).map (·.shown))
        (lines ++ blk.lines blocks.length).length⟩ := by
  have hscope : { (scopeAfter params f₀.values.size blocks lines) with
      blocks := (scopeAfter params f₀.values.size blocks lines).blocks ++
        [(blk.name, (blocks.map (·.shown)).length)] } =
      scopeAfter params f₀.values.size (blocks ++ [blk.name]) lines := by
    simp [scopeAfter, List.zipIdx_append]
  obtain ⟨b, s₁, hb, h⟩ := EStateM.bind_eq_ok.1 h
  rw [addBlock_outline] at hb
  cases hb
  obtain ⟨acc₂, s₂, hinsts, h⟩ := EStateM.bind_eq_ok.1 h
  rw [hscope, declareInsts_outline] at hinsts
  cases hinsts
  cases hterm : blk.term with
  | none =>
    simp only [hterm] at h
    exact absurd h EStateM.throw_ne_ok
  | some t =>
    simp only [hterm] at h
    obtain ⟨x, s₃, hx, h⟩ := EStateM.bind_eq_ok.1 h
    rw [addInstr_outline] at hx
    cases hx
    obtain ⟨rfl, rfl⟩ := EStateM.pure_eq_ok.1 h
    have hlines : lines ++ blk.lines blocks.length =
        (lines ++ blk.insts.map (·.line blocks.length blk.name.shown)) ++
          [t.line blocks.length blk.name.shown] := by
      simp [Block.lines, hterm]
    refine ⟨⟨t, rfl⟩, Prod.ext ?_ ?_, ?_⟩
    · rw [hlines]
      simp [scopeAfter, List.zipIdx_append, Terminator.line]
    · rw [hlines, pendingAfter_concat]
      simp [Terminator.line]
    · rw [hlines]
      simp [Nat.add_assoc]

/-- What the first pass leaves: blocks and instructions that are numbered in the order of the
text. -/
theorem declareBlocks_eq_ok {blks : List Block}
    (h : blks.foldlM declareBlock
      (scopeAfter params f₀.values.size blocks lines, pendingAfter lines)
      ⟨types, f₀.outline (blocks.map (·.shown)) lines.length⟩ = .ok acc s') :
    (∀ blk ∈ blks, ∃ t, blk.term = some t) ∧
      acc = (scopeAfter params f₀.values.size (blocks ++ blks.map (·.name))
          (lines ++ linesFrom blocks.length blks),
        pendingAfter (lines ++ linesFrom blocks.length blks)) ∧
      s' = ⟨types, f₀.outline ((blocks ++ blks.map (·.name)).map (·.shown))
        (lines ++ linesFrom blocks.length blks).length⟩ := by
  induction blks generalizing blocks lines with
  | nil =>
    obtain ⟨rfl, rfl⟩ := EStateM.pure_eq_ok.1 h
    simp [linesFrom]
  | cons blk blks ih =>
    rw [List.foldlM_cons] at h
    obtain ⟨acc₁, s₁, hblk, h⟩ := EStateM.bind_eq_ok.1 h
    obtain ⟨hterm, rfl, rfl⟩ := declareBlock_eq_ok hblk
    obtain ⟨hterms, rfl, rfl⟩ := ih h
    refine ⟨List.forall_mem_cons.2 ⟨hterm, hterms⟩, ?_, ?_⟩ <;> simp [linesFrom]

end Llvm

end Codegen
