import Codegen.Proofs.Semantics

/-!
# Where results are available

At a point of a block the results of the instructions before it and of all instructions in other
blocks that dominate it are available. What a well-formed function reads is available, and so is
what an available instruction has read: a result is not written again while something that was
computed from it is available.

## Main definitions

* `Func.Available`: the instructions whose results are available at a point.
* `Source.WellTyped`: functions whose operands have the types that the operations demand.

## Main results

* `Func.Available.operand`: the operands of an available instruction are available.
* `Func.Available.of_edge`: what is available at the start of a block is available at the end of
  each block that branches to it.
-/

namespace Codegen

namespace Func

variable {f : Func} {b c : BlockId} {i j k : InstrId} {before after : List InstrId} {v : ValueId}

/-- The instructions whose results are available in block `b` behind `before`. -/
def Available (f : Func) (b : BlockId) (before : List InstrId) (j : InstrId) : Prop :=
  ∃ d, f.blockOf j = some d ∧ (d = b ∧ j ∈ before ∨ d ≠ b ∧ f.Dominates d b)

/-- Nothing is available where the entry starts. -/
theorem not_available_entry (hf : 0 < f.blocks.size) : ¬f.Available 0 [] j := by
  rintro ⟨d, -, ⟨-, hj⟩ | ⟨hne, hdom⟩⟩
  · cases hj
  · exact hne (hdom.eq_entry hf)

theorem Available.mem_inserted (hcon : f.Coherent) (h : f.Available b before j) :
    j ∈ f.inserted := by
  obtain ⟨d, hd, -⟩ := h
  exact Func.mem_inserted.2 ⟨d, hcon.mem_instrsOf.2 hd⟩

theorem available_append {new : List InstrId} (hnew : ∀ i ∈ new, f.blockOf i = some b) :
    f.Available b (before ++ new) j ↔ f.Available b before j ∨ j ∈ new := by
  constructor
  · rintro ⟨d, hd, ⟨rfl, hj⟩ | hdom⟩
    · exact (List.mem_append.1 hj).imp (fun hj => ⟨d, hd, .inl ⟨rfl, hj⟩⟩) id
    · exact .inl ⟨d, hd, .inr hdom⟩
  · rintro (⟨d, hd, ⟨rfl, hj⟩ | hdom⟩ | hj)
    · exact ⟨d, hd, .inl ⟨rfl, List.mem_append_left _ hj⟩⟩
    · exact ⟨d, hd, .inr hdom⟩
    · exact ⟨b, hnew j hj, .inl ⟨rfl, List.mem_append_right _ hj⟩⟩

/-- What is available in a block behind some of its instructions is none of the others. -/
theorem Available.not_mem (hcon : f.Consistent) (hb : f.instrsOf b = before ++ after)
    (hj : f.Available b before j) : j ∉ after := by
  intro hmem
  have hblock : f.blockOf j = some b := hcon.mem_instrsOf.1 (by simp [hb, hmem])
  obtain ⟨d, hd, ⟨rfl, hbefore⟩ | ⟨hne, -⟩⟩ := hj
  · exact (List.nodup_append.1 (hb ▸ hcon.nodup_instrsOf d)).2.2 j hbefore j hmem rfl
  · exact hne (Option.some.inj (hd.symm.trans hblock))

/-- The operands of an available instruction that is no phi are available. Otherwise one of them
would be in a block that dominates, and is dominated by, the block of the instruction. -/
theorem Available.operand (hcon : f.Consistent) (hwf : f.WellFormed) (hr : f.Reachable b)
    (hb : f.instrsOf b = before ++ after) (hj : f.Available b before j) {op : Operation}
    (hop : f.opOf j = some op) (hphi : op.isPhi = false) (hv : v ∈ op.args)
    (hk : f.values[v]? = some (.result k)) : f.Available b before k := by
  obtain ⟨d, hd, hpos⟩ := hj
  have hrd : f.Reachable d := by
    rcases hpos with ⟨rfl, -⟩ | ⟨-, hdom⟩
    · exact hr
    · exact hdom.reachable hr
  obtain ⟨bj, aj, hsplit⟩ := List.append_of_mem (hcon.mem_instrsOf.2 hd)
  obtain ⟨e, he, hpos'⟩ := hwf.uses d hrd bj j aj op hsplit hop hphi v hv k hk
  refine ⟨e, he, ?_⟩
  rcases hpos with ⟨rfl, hjb⟩ | ⟨hne, hdom⟩
  · refine hpos'.imp (fun ⟨hed, hkb⟩ => ⟨hed, ?_⟩) id
    rcases List.append_eq_append_iff.1 (hb.symm.trans hsplit) with ⟨cs, rfl, hafter⟩ | ⟨cs, rfl, -⟩
    · have hnodup := List.nodup_append.1 (hsplit ▸ hcon.nodup_instrsOf d)
      exact absurd rfl (hnodup.2.2 j (List.mem_append_left _ hjb) j List.mem_cons_self)
    · exact List.mem_append_left _ hkb
  · right
    rcases hpos' with ⟨rfl, -⟩ | ⟨-, hdom'⟩
    · exact ⟨hne, hdom⟩
    · refine ⟨?_, hdom'.trans hdom⟩
      rintro rfl
      exact hne (hdom.antisymm hdom' hr)

/-- What is available at the start of a block is available at the end of each block that branches to
it. -/
theorem Available.of_edge (hcon : f.Consistent) (hc : c ∈ f.succsOf b) (hj : f.Available c [] j) :
    f.Available b (f.instrsOf b) j := by
  obtain ⟨d, hd, ⟨-, hnil⟩ | ⟨hne, hdom⟩⟩ := hj
  · cases hnil
  · have hdom' : f.Dominates d b := StrictlyDominates.of_edge ⟨hdom, hne⟩ hc
    by_cases hdb : d = b
    · subst hdb
      exact ⟨d, hd, .inl ⟨rfl, hcon.mem_instrsOf.2 hd⟩⟩
    · exact ⟨d, hd, .inr ⟨hdb, hdom'⟩⟩

/-- What comes into a phi from a block is available at its end. -/
theorem PhiFormed.available_end (hcon : f.Consistent) {incoming : List (ValueId × BlockId)}
    (h : f.PhiFormed c incoming) (hmem : (v, b) ∈ incoming) (hr : f.Reachable b)
    (hj : f.values[v]? = some (.result j)) : f.Available b (f.instrsOf b) j := by
  obtain ⟨d, hd, hdom⟩ := h.available hmem hr hj
  by_cases hdb : d = b
  · subst hdb
    exact ⟨d, hd, .inl ⟨rfl, hcon.mem_instrsOf.2 hd⟩⟩
  · exact ⟨d, hd, .inr ⟨hdb, hdom⟩⟩

end Func

namespace Source

variable (src : Source)

/-- Whether a value can be compared: it is an integer or an address. -/
def isComparable (v : ValueId) : Bool :=
  match src.func.valueType v with
  | .ok t => t != TypeId.void && (src.types.kind t == .int || src.types.kind t == .pointer)
  | .error _ => false

/-- Whether the operands of an operation have the types that it demands. The result of a comparison
is a bit. -/
def OperandsTyped : Operation → Prop
  | .binary _ t x y => src.func.valueType x = .ok t ∧ src.func.valueType y = .ok t
  | .icmp _ t x y => src.types.isInt t 1 = true ∧ src.isComparable x = true ∧
    src.func.valueType y = src.func.valueType x
  | .phi t incoming => ∀ inc ∈ incoming, src.func.valueType inc.1 = .ok t
  | _ => True

instance (op : Operation) : Decidable (src.OperandsTyped op) :=
  match op with
  | .binary _ t x y =>
    inferInstanceAs (Decidable (src.func.valueType x = .ok t ∧ src.func.valueType y = .ok t))
  | .icmp _ t x y => inferInstanceAs (Decidable (src.types.isInt t 1 = true ∧
    src.isComparable x = true ∧ src.func.valueType y = src.func.valueType x))
  | .phi t incoming =>
    inferInstanceAs (Decidable (∀ inc ∈ incoming, src.func.valueType inc.1 = .ok t))
  | .alloca .. | .load .. | .store .. | .sext .. | .zext .. | .getElementPtr .. | .call ..
  | .br .. | .condBr .. | .ret .. => inferInstanceAs (Decidable True)

/-- Functions whose inserted instructions have operands of the types that they demand. Stored and
returned values are not mentioned, since lowering demands their type itself. -/
def WellTyped : Prop :=
  ∀ i ∈ src.func.inserted, ∀ op ∈ src.func.opOf i, src.OperandsTyped op

instance : Decidable src.WellTyped :=
  inferInstanceAs
    (Decidable (∀ i ∈ src.func.inserted, ∀ op ∈ src.func.opOf i, src.OperandsTyped op))

/-- The sample function with its types. -/
def sample : Source := ⟨Func.sampleTypes, Func.sample⟩

theorem built_sample : sample.func.Built := by
  simpa only [sample] using Func.built_sample

theorem interned_sample : sample.types.Interned := Func.interned_sampleTypes

theorem check_sample : sample.func.check sample.types = .ok () := by
  decide +kernel

theorem wellTyped_sample : sample.WellTyped := by
  decide +kernel

/-! ### How blocks are split -/

variable {src}

theorem isPhi_iff {i : InstrId} : src.isPhi i = true ↔ src.func.IsPhi i := by
  rw [Source.isPhi, Option.any_eq_true, Func.IsPhi]

theorem isPhi_of_mem_takeWhile {i : InstrId} {is : List InstrId} (hi : i ∈ is.takeWhile src.isPhi) :
    src.func.IsPhi i :=
  isPhi_iff.1 (List.mem_takeWhile_imp hi)

variable (src) in
/-- What belongs to the instructions of a block falls into what belongs to the phis at its head and
what belongs to the others. -/
theorem exists_forall₂_split {β : Type} {R : InstrId → β → Prop} {is : List InstrId}
    {codes : List β} (h : List.Forall₂ R is codes) :
    ∃ phis body, codes = phis ++ body ∧ List.Forall₂ R (is.takeWhile src.isPhi) phis ∧
      List.Forall₂ R (is.dropWhile src.isPhi) body := by
  rw [← List.takeWhile_append_dropWhile (p := src.isPhi) (l := is)] at h
  exact exists_append_of_forall₂ h

/-- The phis of a well-formed block are followed by something else. -/
theorem body_ne_nil {b : BlockId} (hs : src.func.Shaped b) :
    (src.func.instrsOf b).dropWhile src.isPhi ≠ [] := by
  intro hnil
  have hall : ∀ i ∈ src.func.instrsOf b, src.isPhi i = true := List.dropWhile_eq_nil_iff.1 hnil
  obtain ⟨before, last, hlast⟩ : ∃ before last, src.func.instrsOf b = before ++ [last] :=
    ⟨_, _, (List.dropLast_append_getLast hs.ne_nil).symm⟩
  obtain ⟨op, hop, hterm⟩ := (hs.terminates_iff hlast).2 rfl
  obtain ⟨op', hop', hphi⟩ := isPhi_iff.1 (hall last (by simp [hlast]))
  obtain rfl := Option.some.inj (hop.symm.trans hop')
  cases op <;> simp_all [Operation.isTerminator, Operation.isPhi]

/-- Behind the phis of a well-formed block there are no more. -/
theorem body_not_phi {b : BlockId} (hs : src.func.Shaped b) :
    ∀ i ∈ (src.func.instrsOf b).dropWhile src.isPhi, ¬src.func.IsPhi i := by
  intro i hi hphi
  obtain ⟨first, rest, hbody⟩ := List.exists_cons_of_ne_nil (body_ne_nil hs)
  have hfirst : src.isPhi first = false := by
    have := List.head_dropWhile_not src.isPhi (body_ne_nil hs)
    simpa [hbody] using this
  have hsplit : src.func.instrsOf b =
      (src.func.instrsOf b).takeWhile src.isPhi ++ first :: rest := by
    rw [← hbody, List.takeWhile_append_dropWhile]
  rw [hbody] at hi
  rcases List.mem_cons.1 hi with rfl | hi
  · exact absurd (isPhi_iff.2 hphi) (by simp [hfirst])
  · obtain ⟨r₁, r₂, rfl⟩ := List.append_of_mem hi
    have hsplit' : src.func.instrsOf b =
        ((src.func.instrsOf b).takeWhile src.isPhi ++ first :: r₁) ++ i :: r₂ := by
      simpa using hsplit
    have hfirst' := hs.phis_first hsplit' hphi first (by simp)
    exact absurd (isPhi_iff.2 hfirst') (by simp [hfirst])

end Source

end Codegen
