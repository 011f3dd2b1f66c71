import Codegen.Proofs.Growth

/-!
# Conversions that come to an end

A conversion comes to an end if it does not stop by itself and asks only for what the builder can
supply: leaves for values of which the context knows enough, blocks of the function, and the nodes
of instructions that can be converted. While nodes are made and instructions are converted nothing
is put on a chain, so that afterwards the nodes can be put on the chain of their block.

## Main definitions

* `Conversion.Proceeds`: a conversion that asks only for what it can get and does not stop.
* `Builder.Free`, `Builder.Steady`: what a builder leaves untouched while it converts.
* `Builder.Poised`, `Builder.supply`: a builder inside a block, and what it can supply there.

## Main results

* `Builder.exists_run`: a conversion that proceeds comes to its end.
* `Builder.exists_convert`: so does the conversion of an instruction that was not begun.
* `Builder.exists_foldlM_prepend`: nodes that are on no chain can be put on one.
-/

namespace Codegen

/-! ### Conversions that go through -/

namespace Conversion

variable {ω α β : Type} {P Q : α → Prop} {R : β → Prop}

/-- What a conversion can get. -/
structure Supply where
  /-- The values whose producers it can get. -/
  operand : ValueId → Prop
  /-- The values for which it can get a leaf. -/
  leaf : ValueId → Prop
  /-- The blocks to which it can refer. -/
  block : BlockId → Prop

variable {supply : Supply}

/-- A conversion that asks only for what it can get and ends with an answer that has property `P`,
whatever nodes it is given. -/
def Proceeds (supply : Supply) (P : α → Prop) : Conversion ω α → Prop
  | done a => P a
  | stop _ => False
  | inst _ _ next => ∀ n, Proceeds supply P (next n)
  | imm _ _ next => ∀ n, Proceeds supply P (next n)
  | vreg _ next => ∀ n, Proceeds supply P (next n)
  | slot _ next => ∀ n, Proceeds supply P (next n)
  | block b next => supply.block b ∧ ∀ n, Proceeds supply P (next n)
  | operand v next => supply.operand v ∧ ∀ r, Proceeds supply P (next r)
  | leaf v next => supply.leaf v ∧ ∀ n, Proceeds supply P (next n)

theorem Proceeds.imp {c : Conversion ω α} (h : c.Proceeds supply P) (hPQ : ∀ a, P a → Q a) :
    c.Proceeds supply Q := by
  induction c with
  | done a => exact hPQ a h
  | stop e => exact h
  | inst op args next ih => exact fun n => ih n (h n)
  | imm x bits next ih => exact fun n => ih n (h n)
  | vreg r next ih => exact fun n => ih n (h n)
  | slot m next ih => exact fun n => ih n (h n)
  | block b next ih => exact ⟨h.1, fun n => ih n (h.2 n)⟩
  | operand v next ih => exact ⟨h.1, fun r => ih r (h.2 r)⟩
  | leaf v next ih => exact ⟨h.1, fun n => ih n (h.2 n)⟩

@[simp] theorem proceeds_bind {c : Conversion ω α} {k : α → Conversion ω β} :
    (c >>= k).Proceeds supply R ↔ c.Proceeds supply fun a => (k a).Proceeds supply R := by
  change (c.bind k).Proceeds supply R ↔ _
  induction c with
  | done a => rfl
  | stop e => rfl
  | inst op args next ih => exact forall_congr' ih
  | imm x bits next ih => exact forall_congr' ih
  | vreg r next ih => exact forall_congr' ih
  | slot m next ih => exact forall_congr' ih
  | block b next ih => exact and_congr_right fun _ => forall_congr' ih
  | operand v next ih => exact and_congr_right fun _ => forall_congr' ih
  | leaf v next ih => exact and_congr_right fun _ => forall_congr' ih

@[simp] theorem proceeds_pure {a : α} :
    (pure a : Conversion ω α).Proceeds supply P ↔ P a := .rfl

@[simp] theorem proceeds_lift {q : Except Stop α} :
    (liftM q : Conversion ω α).Proceeds supply P ↔ ∃ a, q = .ok a ∧ P a := by
  cases q with
  | ok a =>
    change P a ↔ _
    simp
  | error e =>
    change False ↔ _
    simp

@[simp] theorem proceeds_map {c : Conversion ω α} {f : α → β} :
    (f <$> c).Proceeds supply R ↔ c.Proceeds supply fun a => R (f a) := proceeds_bind

@[simp] theorem proceeds_makeInst {op : ω} {args : List NodeRef} {P : NodeId → Prop} :
    (makeInst op args).Proceeds supply P ↔ ∀ n, P n := .rfl

@[simp] theorem proceeds_makeBlock {b : BlockId} {P : NodeId → Prop} :
    (makeBlock b : Conversion ω NodeId).Proceeds supply P ↔ supply.block b ∧ ∀ n, P n := .rfl

@[simp] theorem proceeds_makeOperand {v : ValueId} {P : NodeRef → Prop} :
    (makeOperand v : Conversion ω NodeRef).Proceeds supply P ↔ supply.operand v ∧ ∀ r, P r := .rfl

@[simp] theorem proceeds_makeLeaf {v : ValueId} {P : NodeId → Prop} :
    (makeLeaf v : Conversion ω NodeId).Proceeds supply P ↔ supply.leaf v ∧ ∀ n, P n := .rfl

theorem proceeds_mapM {f : α → Conversion ω β} {l : List α}
    (h : ∀ a ∈ l, (f a).Proceeds supply fun _ => True) :
    (l.mapM f).Proceeds supply fun _ => True := by
  induction l with
  | nil => exact trivial
  | cons a l ih =>
    obtain ⟨ha, h⟩ := List.forall_mem_cons.1 h
    rw [List.mapM_cons, proceeds_bind]
    refine ha.imp fun _ _ => ?_
    rw [proceeds_bind]
    exact (ih h).imp fun _ _ => trivial

end Conversion

/-! ### Builders that convert -/

namespace Builder

variable {ω : Type} {s s' t : Builder ω} {src : Source} {i j : InstrId} {b : BlockId} {v : ValueId}
  {payload : Payload ω} {args : List NodeRef}

/-- No conversion of the instruction is in progress. -/
def Free (s : Builder ω) (i : InstrId) : Prop := ∃ m, s.memo[i]? = some m ∧ m ≠ .inProgress

/-- What stays when nodes are made and instructions are converted: no conversion is left in
progress, and nothing is put on a chain. -/
structure Steady (s s' : Builder ω) : Prop where
  context : s'.context = s.context
  current : s'.current = s.current
  limit : s'.limit = s.limit
  size : s'.memo.size = s.memo.size
  free : ∀ {i}, s.Free i → s'.Free i
  chained : ∀ {n : NodeId} {node : Node ω}, s'.graph.nodes[n]? = some node → node.chain ≠ none →
    s.graph.nodes[n]? = some node

theorem Steady.refl (s : Builder ω) : Steady s s := ⟨rfl, rfl, rfl, rfl, id, fun h _ => h⟩

theorem Steady.trans (h : Steady s t) (h' : Steady t s') : Steady s s' :=
  ⟨h'.context.trans h.context, h'.current.trans h.current, h'.limit.trans h.limit,
    h'.size.trans h.size, fun hi => h'.free (h.free hi),
    fun hn hc => h.chained (h'.chained hn hc) hc⟩

theorem steady_added {node : Node ω} (hnode : node.chain = none) : Steady s (s.added node) := by
  refine ⟨rfl, rfl, rfl, rfl, id, fun {n node'} hn hc => ?_⟩
  rw [added, Array.getElem?_push] at hn
  split at hn
  · cases hn
    exact absurd hnode hc
  · exact hn

theorem checkLimit_eq (hlimit : s.limit = 0) : checkLimit s = .ok () s := by
  simp only [checkLimit, EStateM.bind_eq_ok, EStateM.get_eq_ok]
  refine ⟨s, s, ⟨rfl, rfl⟩, ?_⟩
  rw [if_neg (by omega)]
  rfl

theorem make_eq (hlimit : s.limit = 0) : make payload args s =
    .ok s.graph.nodes.size (s.added (Node.make s.current payload args)) := by
  simp only [make, EStateM.bind_eq_ok, EStateM.get_eq_ok]
  exact ⟨(), s, checkLimit_eq hlimit, s, s, ⟨rfl, rfl⟩, push_eq_ok.2 ⟨rfl, rfl⟩⟩

theorem makeBlock_eq (hlimit : s.limit = 0) {l : Label} (hl : s.context.label b = .ok l) :
    makeBlock b s =
      .ok s.graph.nodes.size (s.added (Node.make s.current (.block l b) [])) := by
  simp only [makeBlock, EStateM.bind_eq_ok, EStateM.get_eq_ok, liftStop_eq_ok, liftFault_eq_ok]
  exact ⟨(), s, checkLimit_eq hlimit, s, s, ⟨rfl, rfl⟩, l, s, ⟨hl, rfl⟩,
    push_eq_ok.2 ⟨rfl, rfl⟩⟩

theorem makeLeaf_eq (hlimit : s.limit = 0) (hp : leafPayload src s.context v = .ok payload) :
    makeLeaf src v s =
      .ok s.graph.nodes.size (s.added (Node.make s.current payload [])) := by
  simp only [makeLeaf, EStateM.bind_eq_ok, EStateM.get_eq_ok, liftStop_eq_ok]
  exact ⟨s, s, ⟨rfl, rfl⟩, payload, s, ⟨hp, rfl⟩, make_eq hlimit⟩

/-- A builder without limit for block `b`, in a context, with no conversion of some instructions in
progress. -/
structure Poised (c : Context) (b : BlockId) (is : List InstrId) (s : Builder ω) : Prop where
  context : s.context = c
  current : s.current = b
  limit : s.limit = 0
  free : ∀ i ∈ is, s.Free i

theorem Poised.steady {c : Context} {is : List InstrId} (h : Poised c b is s)
    (hs : Steady s s') : Poised c b is s' :=
  ⟨hs.context.trans h.context, hs.current.trans h.current, hs.limit.trans h.limit,
    fun i hi => hs.free (h.free i hi)⟩

/-- What a builder can supply in block `b` when it can convert the instructions `is`. -/
def supply (ω : Type) (src : Source) (c : Context) (b : BlockId) (is : List InstrId) :
    Conversion.Supply where
  leaf v := ∃ payload : Payload ω, leafPayload src c v = .ok payload
  operand v := (∃ i ∈ is, producer? src c b v = .ok (some i)) ∨
    producer? src c b v = .ok none ∧ ∃ payload : Payload ω, leafPayload src c v = .ok payload
  block target := ∃ l, c.label target = .ok l

/-- A conversion that asks only for what the builder can supply comes to its end. -/
theorem exists_run {α : Type} {c : Context} {is : List InstrId} {P : α → Prop}
    {visit : InstrId → Build ω NodeRef}
    (hvisit : ∀ i ∈ is, ∀ s, Poised c b is s → ∃ r s', visit i s = .ok r s' ∧ Steady s s')
    {conv : Conversion ω α} (h : conv.Proceeds (supply ω src c b is) P) (hs : Poised c b is s) :
    ∃ a s', runConversion src visit conv s = .ok a s' ∧ Steady s s' := by
  -- One more node is made, and the rest of the conversion goes on from there.
  have hmade {x : Build ω NodeId} {node : Node ω} {s : Builder ω} {next : NodeId → Conversion ω α}
      (hx : x s = .ok s.graph.nodes.size (s.added node)) (hnode : node.chain = none)
      (ih : ∃ a s', runConversion src visit (next s.graph.nodes.size) (s.added node) = .ok a s' ∧
        Steady (s.added node) s') :
      ∃ a s', (x >>= fun n => runConversion src visit (next n)) s = .ok a s' ∧ Steady s s' := by
    obtain ⟨a, s', hrun, hsteady⟩ := ih
    exact ⟨a, s', EStateM.bind_eq_ok.2 ⟨_, _, hx, hrun⟩, (steady_added hnode).trans hsteady⟩
  induction conv generalizing s with
  | done a => exact ⟨a, s, rfl, .refl s⟩
  | stop e => exact h.elim
  | inst op args next ih =>
    exact hmade (make_eq hs.limit) rfl (ih _ (h _) (hs.steady (steady_added rfl)))
  | imm x bits next ih =>
    exact hmade (make_eq hs.limit) rfl (ih _ (h _) (hs.steady (steady_added rfl)))
  | vreg r next ih =>
    exact hmade (make_eq hs.limit) rfl (ih _ (h _) (hs.steady (steady_added rfl)))
  | slot m next ih =>
    exact hmade (make_eq hs.limit) rfl (ih _ (h _) (hs.steady (steady_added rfl)))
  | block target next ih =>
    obtain ⟨⟨l, hl⟩, h⟩ := h
    exact hmade (makeBlock_eq hs.limit (hs.context ▸ hl)) rfl
      (ih _ (h _) (hs.steady (steady_added rfl)))
  | leaf v next ih =>
    obtain ⟨⟨payload, hp⟩, h⟩ := h
    exact hmade (makeLeaf_eq hs.limit (hs.context ▸ hp)) rfl
      (ih _ (h _) (hs.steady (steady_added rfl)))
  | operand v next ih =>
    obtain ⟨hv, h⟩ := h
    -- The answer to the question who produces the value decides how the node is got.
    have hask {p : Option InstrId} (hp : producer? src c b v = .ok p) {a : α} {s' : Builder ω}
        (hrun : (p.elim (do runConversion src visit (next (some (← makeLeaf src v)))) fun j => do
          runConversion src visit (next (← visit j))) s = .ok a s') :
        runConversion src visit (.operand v next) s = .ok a s' := by
      rw [← hs.context, ← hs.current] at hp
      rw [runConversion, EStateM.bind_eq_ok]
      refine ⟨s, s, EStateM.get_eq_ok.2 ⟨rfl, rfl⟩, EStateM.bind_eq_ok.2 ?_⟩
      refine ⟨p, s, liftStop_eq_ok.2 ⟨hp, rfl⟩, ?_⟩
      cases p <;> exact hrun
    rcases hv with ⟨j, hj, hp⟩ | ⟨hp, payload, hleaf⟩
    · obtain ⟨r, t, hr, hsteady⟩ := hvisit j hj s hs
      obtain ⟨a, s', hrun, hsteady'⟩ := ih r (h r) (hs.steady hsteady)
      exact ⟨a, s', hask hp (EStateM.bind_eq_ok.2 ⟨r, t, hr, hrun⟩), hsteady.trans hsteady'⟩
    · obtain ⟨a, s', hrun, hsteady⟩ := @hmade _ _ _ (fun n => next (some n))
        (makeLeaf_eq hs.limit (hs.context ▸ hleaf)) rfl (ih _ (h _) (hs.steady (steady_added rfl)))
      exact ⟨a, s', hask hp hrun, hsteady⟩

/-- A whole conversion leaves everything as it is but what it remembers. -/
theorem Steady.convert {result : Conversion.Result} (hi : s.memo[i]? = some .unseen)
    (h : Steady (s.remembered i .inProgress) t) :
    Steady s (t.remembered i (.converted result)) := by
  have hlt : i < s.memo.size := (Array.getElem?_eq_some_iff.1 hi).1
  have hsize : t.memo.size = s.memo.size := by simpa [remembered] using h.size
  refine ⟨h.context, h.current, h.limit, by simpa [remembered] using hsize, fun {j} hj => ?_,
    h.chained⟩
  by_cases hij : i = j
  · subst hij
    exact ⟨.converted result, by rw [memo_remembered (hsize ▸ hlt), if_pos rfl], by simp⟩
  · have hfree : t.Free j := h.free (by rwa [Free, memo_remembered_of_ne hij])
    rwa [Free, memo_remembered_of_ne hij]

/-- An instruction is converted if its conversion comes to an end. -/
theorem exists_convert {conv : Converter ω} {fuel : Nat} (hfree : s.Free i)
    (hrun : s.memo[i]? = some .unseen → ∃ result t,
      runConversion src (convert conv src fuel) (conv src s.context i)
        (s.remembered i .inProgress) = .ok result t ∧ Steady (s.remembered i .inProgress) t) :
    ∃ r s', convert conv src (fuel + 1) i s = .ok r s' ∧ Steady s s' := by
  obtain ⟨m, hm, hbusy⟩ := hfree
  have hmemo : memoOf i s = .ok m s := memoOf_eq_ok.2 ⟨hm, rfl⟩
  cases m with
  | inProgress => exact absurd rfl hbusy
  | converted result =>
    exact ⟨result.value, s, EStateM.bind_eq_ok.2 ⟨_, s, hmemo, rfl⟩, .refl s⟩
  | unseen =>
    obtain ⟨result, t, hrun, hsteady⟩ := hrun hm
    refine ⟨result.value, t.remembered i (.converted result), ?_, hsteady.convert hm⟩
    rw [convert, EStateM.bind_eq_ok]
    refine ⟨_, s, hmemo, ?_⟩
    simp only [remember, EStateM.bind_eq_ok, EStateM.modify_eq_ok, EStateM.get_eq_ok,
      EStateM.pure_eq_ok]
    exact ⟨(), _, rfl, _, _, ⟨rfl, rfl⟩, result, t, hrun, (), _, rfl, rfl, rfl⟩

/-! ### Putting nodes on the chain -/

theorem prepend_eq {n : NodeId} {node : Node ω} {head : NodeRef}
    (hn : s.graph.nodes[n]? = some node) (hkind : node.kind = .inst)
    (hblock : node.block = s.current) (hchain : node.chain = none) (hhead : head ≠ some n) :
    prepend i head (some n) s = .ok (some n) (s.chained n head) := by
  simp only [prepend, EStateM.bind_eq_ok, EStateM.get_eq_ok, liftStop_eq_ok, liftFault_eq_ok]
  refine ⟨s, s, ⟨rfl, rfl⟩, node, s, ⟨Graph.node_eq_ok.2 ⟨n, rfl, hn⟩, rfl⟩, ?_⟩
  simp only [hkind, hblock, hchain, hhead.symm, ne_eq, not_true_eq_false, or_self, if_false,
    Option.isSome_none, Bool.false_eq_true]
  rfl

/-- A node of the current block that can be put on the chain. -/
def Loose (s : Builder ω) (r : NodeRef) : Prop :=
  ∃ n node, r = some n ∧ s.graph.nodes[n]? = some node ∧ node.kind = .inst ∧
    node.block = s.current ∧ node.chain = none

/-- Nodes that are on no chain can be put in front of one, and no others get on a chain by that. -/
theorem exists_foldlM_prepend {l : List NodeRef} {head : NodeRef} (hl : ∀ r ∈ l, s.Loose r)
    (hnodup : l.Nodup) (hhead : head ∉ l) :
    ∃ head' s', l.foldlM (prepend i) head s = .ok head' s' ∧
      s'.context = s.context ∧ s'.limit = s.limit ∧ s'.memo = s.memo ∧
      ∀ {n node}, s'.graph.nodes[n]? = some node → node.chain ≠ none →
        s.graph.nodes[n]? = some node ∨ some n ∈ l := by
  induction l generalizing head s with
  | nil => exact ⟨head, s, rfl, rfl, rfl, rfl, fun hn _ => .inl hn⟩
  | cons r l ih =>
    obtain ⟨⟨n, node, rfl, hn, hkind, hblock, hchain⟩, hrest⟩ := List.forall_mem_cons.1 hl
    obtain ⟨hnot, hnodup⟩ := List.nodup_cons.1 hnodup
    have hne : head ≠ some n := fun h => hhead (h ▸ List.mem_cons_self)
    have hloose : ∀ r ∈ l, (s.chained n head).Loose r := by
      intro r hr
      obtain ⟨m, node', rfl, hm, hkind'⟩ := hrest r hr
      refine ⟨m, node', rfl, ?_, hkind'⟩
      rw [nodes_chained, if_neg, hm]
      rintro rfl
      exact hnot hr
    obtain ⟨head', s', hfold, hcontext, hlimit, hmemo, hnodes⟩ := ih hloose hnodup hnot
    refine ⟨head', s', ?_, hcontext, hlimit, hmemo, fun {m node'} hm hc => ?_⟩
    · rw [List.foldlM_cons]
      exact EStateM.bind_eq_ok.2 ⟨_, _, prepend_eq hn hkind hblock hchain hne, hfold⟩
    · rcases hnodes hm hc with hm | hm
      · rw [nodes_chained] at hm
        split at hm
        · next hnm => exact .inr (hnm ▸ List.mem_cons_self)
        · exact .inl hm
      · exact .inr (List.mem_cons_of_mem _ hm)

/-- Going through an instruction succeeds if converting it and putting what it chains in front
succeed. -/
theorem exists_buildInstr {conv : Converter ω} {s₁ s₂ : Builder ω} {r head : NodeRef}
    {result : Conversion.Result} {ins : Instr} {tail : Tail}
    (hconvert : convert conv src (src.func.instrs.size + 1) i s = .ok r s₁)
    (hm : s₁.memo[i]? = some (.converted result)) (hins : src.func.instr i = .ok ins)
    (heffects : ins.hasEffects = !result.chain.isEmpty)
    (hfold : result.chain.reverse.foldlM (prepend i) tail.head s₁ = .ok head s₂) :
    ∃ tail', buildInstr conv src tail i s = .ok tail' s₂ := by
  have hchain : chainOf i s₁ = .ok result.chain s₁ :=
    EStateM.bind_eq_ok.2 ⟨_, s₁, memoOf_eq_ok.2 ⟨hm, rfl⟩, rfl⟩
  refine ⟨if result.chain.isEmpty then { tail with head }
    else ⟨head, ⟨i, result.chain.map NodeRef.number⟩ :: tail.effects⟩, ?_⟩
  simp only [buildInstr, EStateM.bind_eq_ok, liftStop_eq_ok, liftFault_eq_ok]
  refine ⟨r, s₁, hconvert, _, s₁, hchain, ins, s₁, ⟨hins, rfl⟩, ?_⟩
  rw [if_neg (not_not_intro heffects), EStateM.bind_eq_ok]
  refine ⟨head, s₂, hfold, ?_⟩
  split <;> rfl

end Builder

end Codegen
