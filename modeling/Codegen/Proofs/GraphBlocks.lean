import Codegen.Proofs.Simulation
import Codegen.Proofs.Tracking

/-!
# Graphs keep the meaning of blocks

The phis of a block read leaves, which stand for what the registers hold where the block starts, so
that it makes no difference that the chain passes through them one after the other. Behind the phis
the block and its graph are tracked instruction by instruction up to the terminator. Together, the
graph of a block leaves the block for the same place, and with the same contents of the slots, as
the instructions of the block do.

## Main definitions

* `Func.Enters`: the ways in which control comes into a block.

## Main results

* `X86.Tracks.phis`: the phis at the head of a block.
* `X86.Tracks.body`: the other instructions of a block.
* `X86.Plan.execGraph_eq`: a block and its graph.
* `X86.build_preserves_blocks`: the graph of a function that was built.
-/

namespace Codegen

/-- Control comes into block `b` from the end of a reachable block that branches to it, or the
function starts there. -/
def Func.Enters (f : Func) (b : BlockId) : Option BlockId → Prop
  | none => b = 0 ∧ 0 < f.blocks.size
  | some c => f.Reachable c ∧ b ∈ f.succsOf c

theorem Func.Enters.reachable {f : Func} {b : BlockId} {prev : Option BlockId}
    (h : f.Enters b prev) : f.Reachable b := by
  cases prev with
  | none =>
    obtain ⟨rfl, hsize⟩ := h
    exact .entry hsize
  | some c => exact h.1.step h.2

/-- The label of a block of a graph. -/
def Graph.labelOf {ω : Type} (g : Graph ω) (b : BlockId) : Label := g.labels.getD b 0

/-- Results of different instructions may be recorded one after the other. -/
theorem Frame.setAll_cons (fr : Frame) {i : InstrId} {ds : List (InstrId × Datum)} (d : Datum)
    (hi : ∀ e ∈ ds, e.1 ≠ i) : fr.setAll ((i, d) :: ds) = (fr.set i d).setAll ds := by
  refine congrArg (Frame.mk · fr.mem) (funext fun j => ?_)
  rw [List.lookup_cons]
  by_cases hj : j = i
  · subst hj
    have hnone : ds.lookup j = none :=
      List.lookup_eq_none_iff.2 fun e he => bne_iff_ne.2 (hi e he).symm
    simp [hnone]
  · rw [beq_false_of_ne hj, fr.results_set_of_ne hj]

namespace X86

variable {src : Source} {t : Builder Opcode} {regs : Reg → Nat} {place : SlotId → Nat}
  {fr : Frame} {p : Progress} {b c : BlockId} {i : InstrId} {before is : List InstrId}
  {nss : List (List NodeId)} {mem : Memory}

/-- Where a block starts nothing has been passed. -/
theorem Tracks.start (src : Source) (t : Builder Opcode) (regs : Reg → Nat) (mem : Memory) :
    Tracks src t regs [] (src.frameAt regs mem) { mem, produced := fun _ => none } := by
  refine ⟨rfl, fun _ => rfl, fun {j} hj => ?_, (fun hj => by cases hj), (fun hj => by cases hj),
    fun _ _ _ => rfl⟩
  obtain ⟨ins, hins⟩ : ∃ ins, src.func.instrs[j]? = some ins := by
    cases hget : src.func.instrs[j]? with
    | some ins => exact ⟨ins, rfl⟩
    | none => simp [Func.isAlloca, Func.opOf, hget] at hj
  simp [Source.frameAt, Source.resultAt, hins, hj]

/-! ### Phis -/

/-- The operand of a phi that belongs to a predecessor. -/
theorem incomingArg_flatten {incoming : List (ValueId × BlockId)} {preds : List BlockId}
    {args : List (List NodeRef)}
    (hargs : List.Forall₂ (Incoming src t.graph b incoming) preds args) (hc : c ∈ preds)
    (p : Progress) :
    ∃ v r, incoming.find? (·.2 == c) = some (v, c) ∧ Leaf src t.graph b v r ∧
      incomingArg src.types t.graph regs p (c + 1) args.flatten = some r := by
  induction hargs with
  | nil => cases hc
  | @cons d a preds args ha _ ih =>
    cases ha with
    | @mk v r m hfind hr hm =>
      have hlabel : p.read src.types t.graph regs (some m) = some (.label (d + 1)) :=
        (evaluates_block hm).read
      by_cases hcd : c = d
      · subst hcd
        exact ⟨v, r, hfind, hr, by simp [incomingArg, hlabel]⟩
      · obtain ⟨v', r', hfind', hr', harg⟩ := ih ((List.mem_cons.1 hc).resolve_left hcd)
        exact ⟨v', r', hfind', hr', by simpa [incomingArg, hlabel, Ne.symm hcd] using harg⟩

/-- The node of a phi. -/
theorem Plan.phiNode (P : Plan src t) (hi : i ∈ src.func.instrsOf b) (hphi : src.func.IsPhi i)
    {ns : List NodeId} (hchains : Chains t i ns) :
    ∃ ty incoming n args, src.func.opOf i = some (.phi ty incoming) ∧ ns = [n] ∧
      t.memo[i]? = some (.converted (.chained n)) ∧
      List.Forall₂ (Incoming src t.graph b incoming) (src.func.predsOf b) args ∧
      t.graph.Has n b (.inst .phi) args.flatten := by
  obtain ⟨result, hm, hns⟩ := hchains
  obtain ⟨e, op, he, hop, hconv⟩ := P.sound.converted hm
  obtain rfl := Option.some.inj (he.symm.trans (P.consistent.mem_instrsOf.1 hi))
  cases hconv with
  | @phi ty incoming args n hargs hn =>
    obtain rfl : [n] = ns := (List.map_inj_right fun _ _ => Option.some.inj).1 hns
    exact ⟨ty, incoming, n, args, hop, rfl, hm, hargs, hn⟩
  | _ => simp [Func.IsPhi, hop, Operation.isPhi] at hphi

section Phis

variable (P : Plan src t) (hc : src.func.Reachable c) (hsucc : b ∈ src.func.succsOf c)

include P hc hsucc

/-- A phi and its node get the same number. -/
theorem Tracks.phi {ns : List NodeId} (hphi : src.func.IsPhi i) (hchains : Chains t i ns)
    (hb : src.func.instrsOf b = before ++ i :: after) (T : Tracks src t regs before fr p)
    (mem : Memory) :
    ∃ k, src.phiInput (.ofRegs regs place) (some c) (src.frameAt regs mem) i = some (.number k) ∧
      ∃ p', (∀ rest, runChain src.types t.graph regs (some (c + 1)) (ns ++ rest) p =
          runChain src.types t.graph regs (some (c + 1)) rest p') ∧
        Tracks src t regs (before ++ [i]) (fr.set i (.number k)) p' := by
  have hi : i ∈ src.func.instrsOf b := by simp [hb]
  obtain ⟨ty, incoming, n, args, hop, rfl, hm, hargs, hn⟩ := P.phiNode hi hphi hchains
  obtain ⟨v, r, hfind, hleaf, harg⟩ :
      ∃ v r, _ ∧ _ ∧ incomingArg src.types t.graph regs _ _ _ = some r :=
    incomingArg_flatten hargs (P.consistent.edges.mem_predsOf.2 hsucc) p
  have hin (k : InstrId) (hk : src.func.values[v]? = some (.result k)) : k ∈ src.func.inserted :=
    ((P.wellFormed.phis b i hi ty incoming hop).available_end P.consistent
      (List.mem_of_find?_eq_some hfind) hc hk).mem_inserted P.consistent
  obtain ⟨k, hk, hnode⟩ : ∃ k, src.evalValue (.ofRegs regs place) (src.frameAt regs mem) v =
      some (.number k) ∧ Evaluates src.types t.graph regs p.produced r (.number k) :=
    hleaf.evaluates P hin p.produced mem
  refine ⟨k, by simp [Source.phiInput, hop, hfind, hk], p.produce n (.number k),
    fun rest => runChain_cons (execNode_phi hn harg hnode), ?_⟩
  refine T.push P hb hop hm T.mem (fun j hj => fr.results_set_of_ne hj _) (fun m hm => ?_)
    (fun ha => ?_) (fun _ => ⟨k, fr.results_set_self i _, ?_⟩) (fun _ _ _ _ _ he => by cases he)
  · refine p.produced_produce_of_ne (fun he => hm ?_) _
    exact List.mem_singleton.2 (congrArg some he)
  · simp [Func.isAlloca, hop] at ha
  · exact evaluates_produced hn rfl (p.produced_produce_self n _)

/-- The phis at the head of a block get the same numbers as their nodes. -/
theorem Tracks.phis {phis body : List InstrId} (hphi : ∀ i ∈ phis, src.func.IsPhi i)
    (hchains : List.Forall₂ (Chains t) phis nss)
    (hb : src.func.instrsOf b = before ++ (phis ++ body)) (T : Tracks src t regs before fr p)
    (mem : Memory) :
    ∃ ds, phis.mapM (src.phiInput (.ofRegs regs place) (some c) (src.frameAt regs mem)) = some ds ∧
      ∃ p', (∀ rest, runChain src.types t.graph regs (some (c + 1)) (nss.flatten ++ rest) p =
          runChain src.types t.graph regs (some (c + 1)) rest p') ∧
        Tracks src t regs (before ++ phis) (fr.setAll (phis.zip ds)) p' := by
  induction hchains generalizing before fr p with
  | nil => exact ⟨[], rfl, p, fun _ => rfl, by simpa [Frame.setAll] using T⟩
  | @cons i ns phis nss hi hchains ih =>
    obtain ⟨hiphi, hphi⟩ := List.forall_mem_cons.1 hphi
    obtain ⟨k, hk, p₁, hrun₁, T₁⟩ : ∃ k, src.phiInput (.ofRegs regs place) _ _ i = _ ∧ _ :=
      T.phi P hc hsucc hiphi hi hb mem
    obtain ⟨ds, hds, p', hrun, T'⟩ := ih hphi (by simpa using hb) T₁
    refine ⟨.number k :: ds, by simp [List.mapM_cons, hk, hds], p', fun rest => ?_, ?_⟩
    · rw [List.flatten_cons, List.append_assoc, hrun₁, hrun]
    · have hnot : i ∉ phis := fun hmem => by
        have hnodup := hb ▸ P.consistent.nodup_instrsOf b
        exact (List.nodup_cons.1 (List.nodup_append.1 hnodup).2.1).1 (List.mem_append_left _ hmem)
      have hne (e : InstrId × Datum) (he : e ∈ phis.zip ds) : e.1 ≠ i := by
        rintro rfl
        exact hnot (List.of_mem_zip he).1
      rw [List.zip_cons_cons, fr.setAll_cons _ hne]
      simpa using T'

end Phis

/-- The phis of a block that control enters do the same as their nodes, or there are phis at the
start of the function. -/
theorem Plan.phis (P : Plan src t) {prev : Option BlockId} (hprev : src.func.Enters b prev)
    (hchains : List.Forall₂ (Chains t) ((src.func.instrsOf b).takeWhile src.isPhi) nss) :
    (∃ fr p, src.execPhis (.ofRegs regs place) prev ((src.func.instrsOf b).takeWhile src.isPhi)
        (src.frameAt regs mem) = some fr ∧
      (∀ rest, runChain src.types t.graph regs (prev.map (· + 1)) (nss.flatten ++ rest)
          { mem, produced := fun _ => none } =
        runChain src.types t.graph regs (prev.map (· + 1)) rest p) ∧
      Tracks src t regs ((src.func.instrsOf b).takeWhile src.isPhi) fr p) ∨
    (prev = none ∧ (∃ i ∈ src.func.instrsOf b, src.func.IsPhi i) ∧
      src.execPhis (.ofRegs regs place) prev ((src.func.instrsOf b).takeWhile src.isPhi)
        (src.frameAt regs mem) = none ∧
      ∀ rest, runChain src.types t.graph regs (prev.map (· + 1)) (nss.flatten ++ rest)
        { mem, produced := fun _ => none } = none) := by
  have T := Tracks.start src t regs mem
  have hsplit := List.takeWhile_append_dropWhile (p := src.isPhi) (l := src.func.instrsOf b)
  have hisPhi : ∀ i ∈ (src.func.instrsOf b).takeWhile src.isPhi, src.func.IsPhi i :=
    fun i => Source.isPhi_of_mem_takeWhile
  generalize (src.func.instrsOf b).takeWhile src.isPhi = phis at *
  generalize (src.func.instrsOf b).dropWhile src.isPhi = body at *
  cases prev with
  | some c =>
    obtain ⟨hc, hsucc⟩ := hprev
    obtain ⟨ds, hds, p, hrun, T'⟩ :
        ∃ ds, phis.mapM (src.phiInput (.ofRegs regs place) _ _) = _ ∧ _ :=
      T.phis P hc hsucc hisPhi hchains hsplit.symm mem
    exact .inl ⟨_, p, by rw [Source.execPhis, hds]; rfl, hrun, T'⟩
  | none =>
    cases hchains with
    | nil => exact .inl ⟨_, _, rfl, fun _ => rfl, T⟩
    | @cons i ns phis nss hi hchains =>
      have hphi := hisPhi i List.mem_cons_self
      have hmem : i ∈ src.func.instrsOf b := by simp [← hsplit]
      refine .inr ⟨rfl, ⟨i, hmem, hphi⟩, ?_, fun rest => ?_⟩
      · simp [Source.execPhis, List.mapM_cons, Source.phiInput]
      · obtain ⟨ty, incoming, n, args, hop, rfl, hm, -, hn⟩ := P.phiNode hmem hphi hi
        rw [List.flatten_cons, List.append_assoc, List.singleton_append, runChain,
          Option.map_none, execNode_phi_none hn]

/-! ### Blocks -/

/-- The instructions of a block behind its phis do the same as their nodes. -/
theorem Tracks.body (P : Plan src t) (hr : src.func.Reachable b)
    (hchains : List.Forall₂ (Chains t) is nss) (hne : is ≠ [])
    (hphi : ∀ i ∈ is, ¬src.func.IsPhi i) (hb : src.func.instrsOf b = before ++ is)
    (T : Tracks src t regs before fr p) :
    ∃ e fr', src.execBody (.ofRegs regs place) is fr = some (e, fr') ∧
      (∀ prev, runChain src.types t.graph regs prev nss.flatten p =
        some (e.map (· + 1), fr'.mem)) ∧
      ∀ target, e = .goto target → target ∈ src.func.succsOf b := by
  have hshaped := P.wellFormed.shaped b (hr.lt_size P.consistent)
  induction hchains generalizing before fr p with
  | nil => exact absurd rfl hne
  | @cons i ns is nss hi hchains ih =>
    obtain ⟨result, hm, hns⟩ := hi
    obtain ⟨d, op, hd, hop, hconv⟩ := P.sound.converted hm
    have hmem : i ∈ src.func.instrsOf b := by simp [hb]
    obtain rfl := Option.some.inj (hd.symm.trans (P.consistent.mem_instrsOf.1 hmem))
    obtain ⟨hiphi, hphi⟩ := List.forall_mem_cons.1 hphi
    have hopPhi : op.isPhi = false := by simpa [Func.IsPhi, hop] using hiphi
    by_cases hnil : is = []
    · subst hnil
      cases hchains
      have hterm : op.isTerminator = true := by
        simpa [Func.Terminates, hop] using (hshaped.terminates_iff hb).2 rfl
      have hleaves : Leaves src t regs place op ns fr p := T.exit P hr hb hop hterm hns hconv
      obtain ⟨e, hexit, hrun, htarget⟩ := hleaves
      refine ⟨e, fr, by simp [Source.execBody, hop, hterm, hexit], fun prev => ?_, ?_⟩
      · rw [← T.mem]
        simpa using hrun prev []
      · intro target he
        exact P.consistent.mem_succsOf.2 ⟨i, hmem, op, hop, htarget target he⟩
    · have hterm : op.isTerminator = false := by
        have hnot : ¬src.func.Terminates i := fun ht => hnil ((hshaped.terminates_iff hb).1 ht)
        simpa [Func.Terminates, hop] using hnot
      have hfollows : Follows src t regs place before i op ns fr p :=
        T.step P hr hb hop hopPhi hterm hm hns hconv
      obtain ⟨fr₁, p₁, hexec, hrun₁, T₁⟩ := hfollows
      obtain ⟨e, fr', hbody, hrun, htarget⟩ := ih hnil hphi (by simp [hb]) T₁
      refine ⟨e, fr', by simp [Source.execBody, hop, hterm, hexec, hbody], fun prev => ?_, htarget⟩
      rw [List.flatten_cons, hrun₁, hrun]

/-- The graph of a block that control enters does the same as the block. -/
theorem Plan.execGraph_eq (P : Plan src t) {prev : Option BlockId} (hprev : src.func.Enters b prev)
    (hdrawn : Drawn src t b nss) (regs : Reg → Nat) (place : SlotId → Nat) (mem : Memory) :
    (∃ e fr, src.execBlock (.ofRegs regs place) b prev (src.frameAt regs mem) = some (e, fr) ∧
      execGraph src.types t.graph regs b (prev.map (· + 1)) mem = some (e.map (· + 1), fr.mem) ∧
      ∀ target, e = .goto target → target ∈ src.func.succsOf b) ∨
    (prev = none ∧ (∃ i ∈ src.func.instrsOf b, src.func.IsPhi i) ∧
      src.execBlock (.ofRegs regs place) b prev (src.frameAt regs mem) = none ∧
      execGraph src.types t.graph regs b (prev.map (· + 1)) mem = none) := by
  have hr := hprev.reachable
  have hshaped := P.wellFormed.shaped b (hr.lt_size P.consistent)
  have horder := hdrawn.chainOrder_eq_ok
  obtain ⟨phis, body, rfl, hphis, hbody⟩ := src.exists_forall₂_split hdrawn.chains
  have hexec (prev : Option Label) : execGraph src.types t.graph regs b prev mem =
      runChain src.types t.graph regs prev (phis.flatten ++ body.flatten)
        { mem, produced := fun _ => none } := by
    rw [execGraph, horder, List.flatten_append]
  rcases P.phis hprev hphis with ⟨fr, p, hfr, hrun, T⟩ | ⟨hnone, hphi, hfr, hrun⟩
  · obtain ⟨e, fr', hexecBody, hrunBody, htarget⟩ := T.body P hr hbody (Source.body_ne_nil hshaped)
      (Source.body_not_phi hshaped) List.takeWhile_append_dropWhile.symm
    refine .inl ⟨e, fr', ?_, ?_, htarget⟩
    · rw [Source.execBlock, hfr, Option.bind_some, hexecBody]
    · rw [hexec, hrun, hrunBody]
  · refine .inr ⟨hnone, hphi, ?_, ?_⟩
    · rw [Source.execBlock, hfr, Option.bind_none]
    · rw [hexec, hrun]

/-! ### Graphs -/

/-- The labels of a graph that was built. -/
theorem labelOf_of_build (hcon : src.func.Consistent) {g : Graph Opcode} {s s' : Builder Opcode}
    (hbuild : Builder.build converter src s = .ok g s') (hb : b < src.func.blocks.size) :
    g.labelOf b = b + 1 := by
  obtain ⟨t, -, hsound, -, hlabels, -⟩ := drawn_of_build hcon hbuild
  rw [Graph.labelOf, hlabels, hsound.ready.labels]
  simp [Func.blockIds, hb]

/-- The graph of a function that is checked and well typed keeps the meaning of every block.
Whatever the registers and the slots hold where control enters a block, the nodes on its chain leave
the block for the same label, or return the same word, with the same contents of the slots as its
instructions do. Neither gets stuck, unless the function starts with phis. -/
theorem build_preserves_blocks {g : Graph Opcode} {s s' : Builder Opcode} {prev : Option BlockId}
    (hbuilt : src.func.Built) (htypes : src.types.Interned)
    (hcheck : src.func.check src.types = .ok ()) (htyped : src.WellTyped)
    (hbuild : Builder.build converter src s = .ok g s') (hprev : src.func.Enters b prev)
    (regs : Reg → Nat) (place : SlotId → Nat) (mem : Memory) :
    execGraph src.types g regs b (prev.map g.labelOf) mem =
      (src.execBlock (.ofRegs regs place) b prev (src.frameAt regs mem)).map
        (fun out => (out.1.map g.labelOf, out.2.mem)) ∧
    (prev ≠ none ∨ (∀ i ∈ src.func.instrsOf b, ¬src.func.IsPhi i) →
      (src.execBlock (.ofRegs regs place) b prev (src.frameAt regs mem)).isSome) := by
  have hcon := hbuilt.consistent
  have hlt := hprev.reachable.lt_size hcon
  obtain ⟨t, rfl, hsound, hregs, -, hblocks⟩ := drawn_of_build hcon hbuild
  obtain ⟨nss, hdrawn⟩ := hblocks b hlt
  have hdecl : src.func.isDeclaration = false := by
    simpa [Func.isDeclaration] using Nat.ne_of_gt (Nat.zero_lt_of_lt hlt)
  have hwf := Func.wellFormed_of_check hcon (Func.operandsExist_of_users hsound.ready.users) hcheck
    hdecl
  have P : Plan src t := ⟨hcon, hwf, htyped, htypes.kind_void, hsound, hregs⟩
  have hlabels : prev.map t.graph.labelOf = prev.map (· + 1) := by
    cases prev with
    | none => rfl
    | some c => exact congrArg some (labelOf_of_build hcon hbuild (hprev.1.lt_size hcon))
  rw [hlabels]
  rcases P.execGraph_eq hprev hdrawn regs place mem with
    ⟨e, fr, hexec, hgraph, htarget⟩ | ⟨rfl, ⟨i, hi, hphi⟩, hexec, hgraph⟩
  · have hexit : e.map t.graph.labelOf = e.map (· + 1) := by
      cases e with
      | returned x => rfl
      | goto target =>
        have hreach := hprev.reachable.step (htarget target rfl)
        exact congrArg Exit.goto (labelOf_of_build hcon hbuild (hreach.lt_size hcon))
    refine ⟨?_, fun _ => ?_⟩
    · rw [hgraph, hexec, Option.map_some, hexit]
    · rw [hexec, Option.isSome_some]
  · refine ⟨?_, fun h => ?_⟩
    · rw [hgraph, hexec, Option.map_none]
    · rcases h with hne | hnot
      · exact absurd rfl hne
      · exact absurd hphi (hnot i hi)

/-- In the loop of the sample function three, held by the register of the phi, is added to the five
in the slot. -/
theorem build_preserves_blocks_sample :
    Source.sample.func.Built ∧ Source.sample.types.Interned ∧
    Source.sample.func.check Source.sample.types = .ok () ∧ Source.sample.WellTyped ∧
    Source.sample.func.Enters 2 (some 1) ∧
    ∃ g s', Builder.build converter Source.sample {} = .ok g s' ∧
      ∃ mem, execGraph Source.sample.types g (fun _ => 3) 2 (some (g.labelOf 1)) (fun _ => 5) =
        some (.goto (g.labelOf 1), mem) ∧ mem 0 = 8 := by
  have hentry : Source.sample.func.Reachable 0 := .entry (by decide +kernel)
  have hprev : Source.sample.func.Enters 2 (some 1) :=
    ⟨hentry.step (by decide +kernel), by decide +kernel⟩
  have hbuilds : EStateM.isOk (Builder.build converter Source.sample {}) = true := by decide +kernel
  obtain ⟨g, s', hbuild⟩ := EStateM.eq_ok_of_isOk hbuilds
  refine ⟨Source.built_sample, Source.interned_sample, Source.check_sample, Source.wellTyped_sample,
    hprev, g, s', hbuild, ?_⟩
  obtain ⟨hgraph, -⟩ := build_preserves_blocks Source.built_sample Source.interned_sample
    Source.check_sample Source.wellTyped_sample hbuild hprev (fun _ => 3) (fun _ => 0) (fun _ => 5)
  have hexec : (Source.sample.execBlock (.ofRegs (fun _ => 3) fun _ => 0) 2 (some 1)
      (Source.sample.frameAt (fun _ => 3) fun _ => 5)).map (fun out => (out.1, out.2.mem 0)) =
        some (.goto 1, 8) := by
    decide +kernel
  obtain ⟨⟨e, fr⟩, hblock, hout⟩ := Option.map_eq_some_iff.1 hexec
  obtain ⟨rfl, hmem⟩ := Prod.mk.inj hout
  rw [hblock] at hgraph
  exact ⟨fr.mem, hgraph, hmem⟩

end X86

end Codegen
