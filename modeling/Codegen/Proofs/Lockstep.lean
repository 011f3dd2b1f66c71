import Codegen.Proofs.Simulation

/-!
# Lowering keeps the meaning of functions

A function and its lowered form run block by block in lock step. After any number of blocks both are
at the start of the same block, come from the same block and have the same contents of the slots, or
both have returned the same word, or both are stuck. They get stuck only if the function has no body
or if its entry starts with a phi, for which there is no value when the function starts.

## Main definitions

* `X86.Meets`: two runs that are between the same two blocks and agree.
* `X86.Corresponds`: what of this can be seen.

## Main results

* `X86.Meets.step`: a block keeps two runs together.
* `X86.compile_lockstep`: a function that is lowered and its lowered form run in lock step.
-/

namespace Codegen.X86

variable {src : Source} {code : Lowered} {inp : Inputs} {b : BlockId} {i : InstrId} {v : ValueId}
  {op : Operation} {is : List Instr}

/-! ### How the code of a block is split -/

/-- A list is split where a condition fails for the first time. -/
theorem takeWhile_append_of_head {α : Type} {p : α → Bool} {l r : List α}
    (hl : ∀ a ∈ l, p a = true) (hr : ∀ a ∈ r.head?, p a = false) :
    (l ++ r).takeWhile p = l ∧ (l ++ r).dropWhile p = r := by
  rw [List.takeWhile_append_of_pos hl, List.dropWhile_append_of_pos hl]
  cases r with
  | nil => simp
  | cons a r =>
    have ha : ¬p a = true := by simpa using hr a
    rw [List.takeWhile_cons_of_neg ha, List.dropWhile_cons_of_neg ha, List.append_nil]
    exact ⟨rfl, rfl⟩

/-- The code of a block is the code of its phis followed by that of its other instructions. -/
theorem Translation.exists_code (T : Translation src code) (hr : src.func.Reachable b) :
    ∃ phis body rest,
      List.Forall₂ (SelectedFor src b) ((src.func.instrsOf b).takeWhile src.isPhi) phis ∧
      List.Forall₂ (SelectedFor src b) ((src.func.instrsOf b).dropWhile src.isPhi) body ∧
      ∀ prev s, code.execBlock src.types (b + 1) prev s =
        (execPhis (code.width src.types) prev phis.flatten s).bind
          (runCode (code.width src.types) (body.flatten ++ rest)) := by
  have hlt := hr.lt_size T.consistent
  have hshaped := T.wellFormed.shaped b hlt
  obtain ⟨range, hfind, codes, rest, hcodes, hdrop⟩ := T.laid.block b hlt
  obtain ⟨phis, body, rfl, hphis, hbody⟩ := src.exists_forall₂_split hcodes
  refine ⟨phis, body, rest, hphis, hbody, fun prev s => ?_⟩
  have hflat : code.instrs.toList.drop range.start = phis.flatten ++ (body.flatten ++ rest) := by
    rw [hdrop, List.flatten_append, List.append_assoc]
  have hall : ∀ m ∈ phis.flatten, m.isPhi = true := fun m hm => by
    obtain ⟨i, hi, is, hmem, ins, op, hins, hop, hsel⟩ := exists_selected_of_mem_flatten hphis hm
    obtain ⟨op', hop', hphi⟩ := Source.isPhi_of_mem_takeWhile hi
    obtain rfl : op' = op := by simpa [Func.opOf, hins, hop] using hop'.symm
    exact hsel.isPhi_eq_true hphi m hmem
  have hnone : ∀ m ∈ body.flatten, m.isPhi = false := fun m hm => by
    obtain ⟨i, hi, is, hmem, ins, op, hins, hop, hsel⟩ := exists_selected_of_mem_flatten hbody hm
    refine hsel.isPhi_eq_false ?_ m hmem
    simpa [Func.IsPhi, Func.opOf, hins, hop] using Source.body_not_phi hshaped i hi
  have hhead : ∀ m ∈ (body.flatten ++ rest).head?, m.isPhi = false := by
    obtain ⟨m, ms, hcons⟩ := List.exists_cons_of_ne_nil (flatten_ne_nil hshaped
      List.takeWhile_append_dropWhile.symm (Source.body_ne_nil hshaped) hbody)
    simpa [hcons] using hnone m (by simp [hcons])
  obtain ⟨htake, hdropWhile⟩ := takeWhile_append_of_head hall hhead
  rw [Lowered.execBlock, hfind]
  simp only [hflat, htake, hdropWhile]

/-! ### Between two blocks -/

/-- Two runs that are between the same two blocks and agree on what is available there. -/
structure Meets (src : Source) (inp : Inputs) (p : Position BlockId Frame)
    (q : Position Label State) : Prop where
  block : q.block = p.block + 1
  prev : q.prev = p.prev.map (· + 1)
  reachable : src.func.Reachable p.block
  edge : ∀ c ∈ p.prev, src.func.Reachable c ∧ p.block ∈ src.func.succsOf c
  entry : p.prev = none → p.block = 0
  agrees : Agrees src inp (fun j => ∃ c ∈ p.prev, src.func.Available c (src.func.instrsOf c) j)
    p.state q.state

/-- What can be seen of two runs that meet: they are between the same two blocks and have the same
contents of the slots. -/
structure Corresponds (p : Position BlockId Frame) (q : Position Label State) : Prop where
  block : q.block = p.block + 1
  prev : q.prev = p.prev.map (· + 1)
  mem : q.state.mem = p.state.mem

/-- The phis of a block where two runs meet do the same in both, or there are phis at the start of
the function. -/
theorem Meets.phis (T : Translation src code) {p : Position BlockId Frame}
    {q : Position Label State} (h : Meets src inp p q) {codes : List (List Instr)}
    (hcodes : List.Forall₂ (SelectedFor src p.block)
      ((src.func.instrsOf p.block).takeWhile src.isPhi) codes) :
    (∃ fr s,
      src.execPhis inp p.prev ((src.func.instrsOf p.block).takeWhile src.isPhi) p.state = some fr ∧
      execPhis (code.width src.types) q.prev codes.flatten q.state = some s ∧
      Agrees src inp (src.func.Available p.block ((src.func.instrsOf p.block).takeWhile src.isPhi))
        fr s) ∨
    (p.prev = none ∧ (∃ i ∈ src.func.instrsOf 0, src.func.IsPhi i) ∧
      src.execPhis inp p.prev ((src.func.instrsOf p.block).takeWhile src.isPhi) p.state = none ∧
      execPhis (code.width src.types) q.prev codes.flatten q.state = none) := by
  obtain ⟨b, prev, fr⟩ := p
  obtain ⟨l, lprev, s⟩ := q
  obtain ⟨hblock, hprev, hr, hedge, hentry, h⟩ := h
  dsimp only at *
  subst hblock hprev
  have hisPhi : ∀ i ∈ (src.func.instrsOf b).takeWhile src.isPhi, src.func.IsPhi i :=
    fun i => Source.isPhi_of_mem_takeWhile
  cases prev with
  | some c =>
    obtain ⟨hc, hb⟩ := hedge c rfl
    have h' : Agrees src inp (src.func.Available c (src.func.instrsOf c)) fr s :=
      ⟨h.mem, h.arg, fun hj => h.result ⟨c, rfl, hj⟩⟩
    exact .inl (h'.phis T hc hb List.takeWhile_append_dropWhile.symm hisPhi hcodes)
  | none =>
    obtain rfl := hentry rfl
    have hsub : ∀ i ∈ (src.func.instrsOf 0).takeWhile src.isPhi, i ∈ src.func.instrsOf 0 :=
      fun i hi => (List.takeWhile_prefix _).subset hi
    generalize (src.func.instrsOf 0).takeWhile src.isPhi = phis at *
    cases hcodes with
    | nil =>
      refine .inl ⟨fr, s, rfl, rfl, h.mem, h.arg, fun hj => ?_⟩
      exact absurd hj (Func.not_available_entry (hr.lt_size T.consistent))
    | @cons i is phis codes hsel hcodes =>
      have hi := hisPhi i List.mem_cons_self
      refine .inr ⟨rfl, ⟨i, hsub i List.mem_cons_self, hi⟩, ?_, ?_⟩
      · simp [Source.execPhis, List.mapM_cons, Source.phiInput]
      · obtain ⟨ins, op, hins, hop, hsel⟩ := hsel
        obtain ⟨op', hop', hphi⟩ := hi
        obtain rfl : op = op' := by simpa [Func.opOf, hins, hop] using hop'
        cases hsel with
        | phi => simp [execPhis, List.mapM_cons, phiInput_none]
        | _ => cases hphi

/-- A block keeps two runs together. They get stuck only at phis at the start of the function. -/
theorem Meets.step (T : Translation src code) {p : Position BlockId Frame}
    {q : Position Label State} (h : Meets src inp p q) :
    Option.Rel (Sum.LiftRel (Meets src inp) Eq) (src.step inp p) (code.step src.types q) ∧
      (src.step inp p = none → ∃ i ∈ src.func.instrsOf 0, src.func.IsPhi i) := by
  obtain ⟨phis, body, rest, hphis, hbody, hexec⟩ := T.exists_code h.reachable
  have hstep : code.execBlock src.types q.block q.prev q.state =
      (execPhis (code.width src.types) q.prev phis.flatten q.state).bind
        (runCode (code.width src.types) (body.flatten ++ rest)) := by
    rw [h.block, hexec]
  rcases h.phis T hphis with ⟨fr, s, hfr, hs, hagrees⟩ | ⟨-, hphi, hfr, hs⟩
  · have hshaped := T.wellFormed.shaped _ (h.reachable.lt_size T.consistent)
    obtain ⟨e, fr', s', hrun, hrun', hagrees', htarget⟩ := hagrees.body T h.reachable hbody
      (Source.body_ne_nil hshaped) (Source.body_not_phi hshaped)
      List.takeWhile_append_dropWhile.symm
    have hsrc : src.execBlock inp p.block p.prev p.state = some (e, fr') := by
      rw [Source.execBlock, hfr, Option.bind_some, hrun]
    have hcode : code.execBlock src.types q.block q.prev q.state = some (e.map (· + 1), s') := by
      rw [hstep, hs, Option.bind_some, hrun']
    rw [Source.step, hsrc, Lowered.step, hcode]
    cases e with
    | goto target =>
      have htarget := htarget target rfl
      refine ⟨.some (.inl ⟨rfl, ?_, h.reachable.step htarget, ?_, (fun he => by cases he), ?_⟩),
        fun he => by cases he⟩
      · simp [h.block]
      · rintro c ⟨⟩
        exact ⟨h.reachable, htarget⟩
      · refine ⟨hagrees'.mem, hagrees'.arg, ?_⟩
        rintro j ⟨c, ⟨⟩, hj⟩
        exact hagrees'.result hj
    | returned x =>
      refine ⟨.some (.inr ?_), fun he => by cases he⟩
      rw [hagrees'.mem]
  · have hsrc : src.execBlock inp p.block p.prev p.state = none := by
      rw [Source.execBlock, hfr, Option.bind_none]
    have hcode : code.execBlock src.types q.block q.prev q.state = none := by
      rw [hstep, hs, Option.bind_none]
    rw [Source.step, hsrc, Lowered.step, hcode]
    exact ⟨.none, fun _ => hphi⟩

/-! ### Runs -/

section Runs

variable {σ τ ρ : Type} {step : σ → Option (σ ⊕ ρ)} {step' : τ → Option (τ ⊕ ρ)} {R : σ → τ → Prop}

/-- Runs whose steps keep them together stay together. -/
theorem runSteps_rel (hstep : ∀ s t, R s t → Option.Rel (Sum.LiftRel R Eq) (step s) (step' t))
    (n : Nat) {s : σ} {t : τ} (h : R s t) :
    Option.Rel (Sum.LiftRel R Eq) (runSteps step n s) (runSteps step' n t) := by
  induction n generalizing s t with
  | zero => exact .some (.inl h)
  | succ n ih =>
    have hst := hstep s t h
    rw [runSteps, runSteps]
    generalize step s = o at *
    generalize step' t = o' at *
    cases hst with
    | none => exact .none
    | some hrel =>
      cases hrel with
      | inl h' => exact ih h'
      | inr he => exact .some (.inr he)

/-- A run of which no step is stuck is not stuck. -/
theorem runSteps_ne_none (hstep : ∀ s t, R s t → Option.Rel (Sum.LiftRel R Eq) (step s) (step' t))
    (hsome : ∀ s t, R s t → step s ≠ none) (n : Nat) {s : σ} {t : τ} (h : R s t) :
    runSteps step n s ≠ none := by
  induction n generalizing s t with
  | zero => exact Option.some_ne_none _
  | succ n ih =>
    have hst := hstep s t h
    have hs := hsome s t h
    rw [runSteps]
    generalize step s = o at *
    generalize step' t = o' at *
    cases hst with
    | none => exact absurd rfl hs
    | some hrel =>
      cases hrel with
      | inl h' => exact ih h'
      | inr he => exact Option.some_ne_none _

/-- Runs that are in lock step return the same. -/
theorem exists_returned_iff {f : Nat → Option (σ ⊕ ρ)} {g : Nat → Option (τ ⊕ ρ)}
    (h : ∀ n, Option.Rel (Sum.LiftRel R Eq) (f n) (g n)) (r : ρ) :
    (∃ n, f n = some (.inr r)) ↔ ∃ n, g n = some (.inr r) := by
  refine exists_congr fun n => ?_
  have hn := h n
  generalize f n = o at *
  generalize g n = o' at *
  cases hn with
  | none => simp
  | some hrel => cases hrel <;> simp_all

end Runs

/-- Two runs meet at the start of a function whose arguments are in the first registers. -/
theorem Meets.start (hcon : src.func.Consistent) (hbody : 0 < src.func.blocks.size) (s : State)
    (hargs : ∀ n v, src.func.params[n]? = some v →
      s.regs (Reg.virtual n) = inp.args n % 2 ^ src.widthOf v) :
    Meets src inp ⟨0, none, { results := fun _ => none, mem := s.mem }⟩ ⟨1, none, s⟩ where
  block := rfl
  prev := rfl
  reachable := .entry hbody
  edge := fun _ hc => by cases hc
  entry := fun _ => rfl
  agrees := by
    refine ⟨rfl, fun {v n t} hv => ?_, fun hj => ?_⟩
    · have hparam := hcon.arg_param hv
      rw [Func.regOf_param hcon.toNaming hparam, hargs n v hparam,
        Source.widthOf_eq (Func.valueType_arg hv), BitVec.toNat_ofNat]
    · obtain ⟨_, hc, -⟩ := hj
      cases hc

theorem Laid.run_of_isDeclaration (h : Laid src code) (hdecl : src.func.isDeclaration = true)
    {s : State} {n : Nat} : code.run src.types s n = none := by
  have hsize : src.func.blocks.size = 0 := by simpa [Func.isDeclaration] using hdecl
  have hfirst := h.first
  simp only [Func.blockIds, hsize, List.range_zero, List.head?_nil, Option.map_none,
    Option.map_eq_none_iff] at hfirst
  rw [Lowered.run, hfirst]

theorem Laid.run_eq (h : Laid src code) (hbody : 0 < src.func.blocks.size) (s : State) (n : Nat) :
    code.run src.types s n = runSteps (code.step src.types) n ⟨1, none, s⟩ := by
  have hfirst := h.first
  obtain ⟨k, hk⟩ := Nat.exists_eq_succ_of_ne_zero (Nat.ne_of_gt hbody)
  simp only [Func.blockIds, hk, List.range_succ_eq_map, List.head?_cons, Option.map_some,
    Option.map_eq_some_iff] at hfirst
  obtain ⟨range, hrange, hlabel⟩ := hfirst
  rw [Lowered.run, hrange]
  simp only [hlabel]

/-- A function that is checked, well typed and lowered and its lowered form run in lock step,
whatever the arguments and the contents of the slots are. After any number of blocks they are
between the same two blocks with the same contents of the slots, or both have returned the same word
with the same contents of the slots, or both are stuck; so one returns a word if and only if the
other does. A function that has a body and no phi in its entry never gets stuck. -/
theorem compile_lockstep {m m' : Compiler} (hbuilt : src.func.Built)
    (hcheck : src.func.check src.types = .ok ()) (htyped : src.WellTyped)
    (hcompile : Compiler.compile src m = .ok code m') (inp : Inputs) (s : State)
    (hargs : ∀ n v, src.func.params[n]? = some v →
      s.regs (Reg.virtual n) = inp.args n % 2 ^ src.widthOf v) :
    (∀ n, Option.Rel (Sum.LiftRel Corresponds Eq) (src.run inp s.mem n) (code.run src.types s n)) ∧
    (∀ x mem, (∃ n, src.run inp s.mem n = some (.inr (x, mem))) ↔
      ∃ n, code.run src.types s n = some (.inr (x, mem))) ∧
    (src.func.isDeclaration = false → (∀ i ∈ src.func.instrsOf 0, ¬src.func.IsPhi i) →
      ∀ n, (src.run inp s.mem n).isSome) := by
  have hcon := hbuilt.consistent
  have hlaid := laid_of_compile hcon hcompile
  cases hdecl : src.func.isDeclaration with
  | true =>
    have hrun (n : Nat) : src.run inp s.mem n = none := by rw [Source.run, hdecl, if_pos rfl]
    have hrun' (n : Nat) : code.run src.types s n = none := hlaid.run_of_isDeclaration hdecl
    refine ⟨fun n => ?_, fun x mem => ?_, fun hne => by cases hne⟩
    · rw [hrun, hrun']
      exact .none
    · simp [hrun, hrun']
  | false =>
    obtain ⟨c, hready, -⟩ := hlaid.context
    have hsize : 0 < src.func.blocks.size := by
      simpa [Func.isDeclaration, Nat.pos_iff_ne_zero] using hdecl
    have hwf := Func.wellFormed_of_check hcon (Func.operandsExist_of_users hready.users) hcheck
      hdecl
    have T : Translation src code := ⟨hcon, hwf, htyped, hlaid⟩
    have hstart := Meets.start hcon hsize s hargs
    have hstep : ∀ p q, Meets src inp p q → Option.Rel (Sum.LiftRel (Meets src inp) Eq)
        (src.step inp p) (code.step src.types q) := fun p q h => (h.step T).1
    have hrun (n : Nat) : src.run inp s.mem n =
        runSteps (src.step inp) n ⟨0, none, { results := fun _ => none, mem := s.mem }⟩ := by
      rw [Source.run, hdecl, if_neg Bool.false_ne_true]
    have hrun' (n : Nat) := hlaid.run_eq hsize s n
    have hrel (n : Nat) : Option.Rel (Sum.LiftRel (Meets src inp) Eq) (src.run inp s.mem n)
        (code.run src.types s n) := by
      rw [hrun, hrun']
      exact runSteps_rel hstep n hstart
    refine ⟨fun n => ?_, fun x mem => exists_returned_iff hrel (x, mem), fun _ hphi n => ?_⟩
    · have hn := hrel n
      generalize src.run inp s.mem n = o at hn ⊢
      generalize code.run src.types s n = o' at hn ⊢
      cases hn with
      | none => exact .none
      | some hn =>
        cases hn with
        | inl h => exact .some (.inl ⟨h.block, h.prev, h.agrees.mem⟩)
        | inr he => exact .some (.inr he)
    · rw [hrun, Option.isSome_iff_ne_none]
      refine runSteps_ne_none hstep (fun p q h hnone => ?_) n hstart
      obtain ⟨i, hi, hi'⟩ := (h.step T).2 hnone
      exact hphi i hi hi'

/-- A state of the machine in which the first register holds a number and all slots are zero. -/
def sampleState (n : Nat) : State where
  regs := fun r => if r = Reg.virtual 0 then n else 0
  mem := fun _ => 0
  flags := ⟨false, false, false⟩

/-- The word that a run has returned. -/
def returnedWord? {σ : Type} : Option (σ ⊕ Outcome) → Option (BitVec 32)
  | some (.inr (x, _)) => some x
  | _ => none

theorem returnedWord?_eq_some {σ : Type} {r : Option (σ ⊕ Outcome)} {x : BitVec 32}
    (h : returnedWord? r = some x) : ∃ mem, r = some (.inr (x, mem)) := by
  obtain _ | _ | ⟨y, mem⟩ := r
  · cases h
  · cases h
  · cases h
    exact ⟨mem, rfl⟩

/-- The sample function returns nine for three, and so does its lowered form. -/
theorem compile_lockstep_sample :
    Source.sample.func.Built ∧ Source.sample.func.check Source.sample.types = .ok () ∧
    Source.sample.WellTyped ∧
    ∃ code m', Compiler.compile Source.sample {} = .ok code m' ∧
      ∃ n mem, code.run Source.sample.types (sampleState 3) n = some (.inr (9, mem)) := by
  refine ⟨Source.built_sample, Source.check_sample, Source.wellTyped_sample, ?_⟩
  have hargs : ∀ n v, Source.sample.func.params[n]? = some v →
      (sampleState 3).regs (Reg.virtual n) = 3 % 2 ^ Source.sample.widthOf v := by
    intro n v hv
    have hparams : Source.sample.func.params = [1] := by decide +kernel
    rw [hparams, List.getElem?_singleton] at hv
    split at hv
    · next hn =>
      cases hv
      rw [hn]
      decide +kernel
    · cases hv
  have hreturns : returnedWord? (Source.sample.run ⟨fun _ => 3, fun _ => 0⟩ (sampleState 3).mem 9) =
      some 9 := by decide +kernel
  obtain ⟨memory, hrun⟩ := returnedWord?_eq_some hreturns
  have hlowers : EStateM.isOk (Compiler.compile Source.sample {}) = true := by decide +kernel
  obtain ⟨code, m', hcompile⟩ := EStateM.eq_ok_of_isOk hlowers
  obtain ⟨-, hiff, -⟩ := compile_lockstep Source.built_sample Source.check_sample
    Source.wellTyped_sample hcompile ⟨fun _ => 3, fun _ => 0⟩ (sampleState 3) hargs
  obtain ⟨n, hcode⟩ := (hiff 9 memory).mp ⟨9, hrun⟩
  exact ⟨code, m', hcompile, n, memory, hcode⟩

end Codegen.X86
