import Mathlib
import Codegen.Error

/-!
# Computations that end with an answer

A computation that can stop is taken apart from its end: if a sequence of steps ends with an answer,
every step of it did, and if it stops, one of its steps did and those before it gave answers. The
statements below say this for each way of putting computations together. They also say what a
computation gives if nobody looks at the state that it leaves, and what is true of the state however
the computation ends.

## Main results

* `Except.bind_eq_ok`, `EStateM.bind_eq_ok`: two steps in sequence.
* `Except.forM_eq_ok`: the same step for every element of a list.
* `Except.mapM_eq_ok`: a list of answers.
* `Except.foldlM_induction`, `EStateM.foldlM_induction`: what every step keeps, the whole run keeps.
* `EStateM.after_bind`: the state that two steps leave, also if they end without an answer.
* `Except.bind_eq_error`, `EStateM.bind_eq_error`: two steps in sequence of which one stops.
* `Except.exists_of_foldlM_eq_error`: the step at which a fold stops.
* `EStateM.outcome_bind_congr`: two steps that give the same in two states.
* `EStateM.Maintains.bind`: two steps that keep a property of the state.
-/

namespace Codegen

/-- Each element of a list is related to one of the other. -/
theorem exists_mem_of_forall₂ {α β : Type} {R : α → β → Prop} {l : List α} {r : List β}
    (h : List.Forall₂ R l r) {a : α} (ha : a ∈ l) : ∃ b ∈ r, R a b := by
  obtain ⟨n, hlt, rfl⟩ := List.getElem_of_mem ha
  exact ⟨_, List.getElem_mem _, h.get hlt (h.length_eq ▸ hlt)⟩

/-- What is related to a list that is put together is put together itself. -/
theorem exists_append_of_forall₂ {α β : Type} {R : α → β → Prop} {l₁ l₂ : List α} {r : List β}
    (h : List.Forall₂ R (l₁ ++ l₂) r) :
    ∃ r₁ r₂, r = r₁ ++ r₂ ∧ List.Forall₂ R l₁ r₁ ∧ List.Forall₂ R l₂ r₂ := by
  refine ⟨_, _, (List.take_append_drop l₁.length r).symm, ?_, ?_⟩
  · simpa using List.forall₂_take l₁.length h
  · simpa using List.forall₂_drop l₁.length h

/-- The elements of an array with their numbers are those that a number leads to. -/
theorem mem_zip_range {α : Type} {xs : Array α} {n : Nat} {x : α} :
    (n, x) ∈ (List.range xs.size).zip xs.toList ↔ xs[n]? = some x := by
  rw [List.mem_iff_getElem?]
  simp only [List.getElem?_zip_eq_some]
  constructor
  · rintro ⟨m, hm, hx⟩
    obtain ⟨_, rfl⟩ := List.getElem?_eq_some_iff.1 hm
    simpa using hx
  · intro hx
    have hlt : n < xs.size := (Array.getElem?_eq_some_iff.1 hx).1
    exact ⟨n, by simp [hlt], by simpa using hx⟩

/-! ### Computations without a state -/

namespace Except

variable {ε α β : Type}

theorem bind_eq_ok {x : Except ε α} {f : α → Except ε β} {b : β} :
    (x >>= f) = .ok b ↔ ∃ a, x = .ok a ∧ f a = .ok b := by
  cases x <;> simp [bind, Except.bind]

theorem pure_eq_ok {a b : α} : (pure a : Except ε α) = .ok b ↔ a = b := by
  simp [pure, Except.pure]

theorem throw_ne_ok {e : ε} {a : α} : (throw e : Except ε α) ≠ .ok a := by
  simp [throw, throwThe, MonadExceptOf.throw]

theorem forM_eq_ok {f : α → Except ε PUnit} {l : List α} :
    l.forM f = .ok () ↔ ∀ a ∈ l, f a = .ok () := by
  induction l with
  | nil => simp [pure, Except.pure]
  | cons a l ih =>
    change (f a >>= fun _ => l.forM f) = .ok () ↔ _
    simp only [bind_eq_ok, ih, List.forall_mem_cons]
    exact ⟨fun ⟨_, ha, hl⟩ => ⟨ha, hl⟩, fun ⟨ha, hl⟩ => ⟨(), ha, hl⟩⟩

/-- The answers of a list of computations are one for each. -/
theorem mapM_eq_ok {f : α → Except ε β} {l : List α} {r : List β} :
    l.mapM f = .ok r ↔ List.Forall₂ (fun a b => f a = .ok b) l r := by
  induction l generalizing r with
  | nil => cases r <;> simp [pure, Except.pure]
  | cons a l ih =>
    cases r with
    | nil => simp [List.mapM_cons, bind_eq_ok, pure, Except.pure]
    | cons b r => simp [List.mapM_cons, bind_eq_ok, pure, Except.pure, ih]

/-- What every step of a fold keeps, the whole fold keeps. -/
theorem foldlM_induction {f : β → α → Except ε β} (P : β → Prop) {l : List α}
    (step : ∀ b a b', a ∈ l → P b → f b a = .ok b' → P b') {b b' : β} (hb : P b)
    (h : l.foldlM f b = .ok b') : P b' := by
  induction l generalizing b with
  | nil =>
    obtain rfl := pure_eq_ok.1 h
    exact hb
  | cons a l ih =>
    rw [List.foldlM_cons, bind_eq_ok] at h
    obtain ⟨c, hc, h⟩ := h
    exact ih (fun b a b' ha => step b a b' (List.mem_cons_of_mem _ ha))
      (step b a c List.mem_cons_self hb hc) h

/-- A change that commutes with every step of a fold commutes with the fold. -/
theorem foldlM_map {g : β → α → Except ε β} {h : β → β} {l : List α}
    (hg : ∀ b a, g (h b) a = (g b a).map h) (b : β) :
    l.foldlM g (h b) = (l.foldlM g b).map h := by
  induction l generalizing b with
  | nil => rfl
  | cons a l ih =>
    rw [List.foldlM_cons, List.foldlM_cons, hg]
    cases g b a with
    | ok c => exact ih c
    | error e => rfl

end Except

/-- A fault is no answer. -/
theorem liftFault_eq_ok {α : Type} {x : Except Fault α} {a : α} :
    (liftM x : Except Stop α) = .ok a ↔ x = .ok a := by
  cases x <;> simp [liftM, monadLift, MonadLift.monadLift]

/-! ### Computations with a state -/

namespace EStateM

variable {ε σ α β : Type}

theorem bind_eq_ok {x : EStateM ε σ α} {f : α → EStateM ε σ β} {s t : σ} {b : β} :
    (x >>= f) s = .ok b t ↔ ∃ a u, x s = .ok a u ∧ f a u = .ok b t := by
  simp only [bind, EStateM.bind]
  cases x s <;> simp [and_assoc]

theorem pure_eq_ok {s t : σ} {a b : α} :
    (pure a : EStateM ε σ α) s = .ok b t ↔ a = b ∧ s = t := by
  simp [pure, EStateM.pure]

theorem get_eq_ok {s t u : σ} : (get : EStateM ε σ σ) s = .ok t u ↔ s = t ∧ s = u := by
  simp [get, getThe, MonadStateOf.get, EStateM.get]

theorem set_eq_ok {s t u : σ} {a : PUnit} :
    (set t : EStateM ε σ PUnit) s = .ok a u ↔ t = u := by
  simp [set, EStateM.set]

theorem modify_eq_ok {g : σ → σ} {s t : σ} {a : PUnit} :
    (modify g : EStateM ε σ PUnit) s = .ok a t ↔ g s = t := by
  simp [modify, modifyGet, MonadStateOf.modifyGet, EStateM.modifyGet]

theorem throw_ne_ok {e : ε} {s t : σ} {a : α} : (throw e : EStateM ε σ α) s ≠ .ok a t := by
  simp [throw, throwThe, MonadExceptOf.throw, EStateM.throw]

/-- Whether a run gave an answer. -/
def isOk : EStateM.Result ε σ α → Bool
  | .ok _ _ => true
  | .error _ _ => false

theorem eq_ok_of_isOk {r : EStateM.Result ε σ α} (h : isOk r = true) : ∃ a s, r = .ok a s := by
  cases r with
  | ok a s => exact ⟨a, s, rfl⟩
  | error e s => cases h

/-- Whether a run gave an answer with a property. -/
def gives (p : α → Bool) : EStateM.Result ε σ α → Bool
  | .ok a _ => p a
  | .error _ _ => false

theorem eq_ok_of_gives {p : α → Bool} {r : EStateM.Result ε σ α} (h : gives p r = true) :
    ∃ a s, r = .ok a s ∧ p a = true := by
  cases r with
  | ok a s => exact ⟨a, s, rfl, h⟩
  | error e s => cases h

/-- What every step of a fold keeps, the whole fold keeps. -/
theorem foldlM_induction {f : β → α → EStateM ε σ β} (P : β → σ → Prop) {l : List α}
    (step : ∀ b a b' s t, a ∈ l → P b s → f b a s = .ok b' t → P b' t) {b b' : β} {s t : σ}
    (hb : P b s) (h : l.foldlM f b s = .ok b' t) : P b' t := by
  induction l generalizing b s with
  | nil =>
    obtain ⟨rfl, rfl⟩ := pure_eq_ok.1 h
    exact hb
  | cons a l ih =>
    rw [List.foldlM_cons, bind_eq_ok] at h
    obtain ⟨c, u, hc, h⟩ := h
    exact ih (fun b a b' s t ha => step b a b' s t (List.mem_cons_of_mem _ ha))
      (step b a c s u List.mem_cons_self hb hc) h

/-- The state that a computation leaves, whether it gives an answer or stops. -/
def after (x : EStateM ε σ α) (s : σ) : σ :=
  match x s with
  | .ok _ t => t
  | .error _ t => t

theorem after_eq_of_ok {x : EStateM ε σ α} {s t : σ} {a : α} (h : x s = .ok a t) :
    after x s = t := by
  rw [after, h]

/-- What the first step leaves and the second one keeps, both leave. -/
theorem after_bind {x : EStateM ε σ α} {f : α → EStateM ε σ β} {s : σ} (P : σ → Prop)
    (hx : P (after x s)) (hf : ∀ a t, x s = .ok a t → P t → P (after (f a) t)) :
    P (after (x >>= f) s) := by
  simp only [after, bind, EStateM.bind] at hx ⊢
  cases h : x s with
  | ok a t => exact hf a t h (by simpa [h] using hx)
  | error e t => simpa [h] using hx

theorem after_forM {f : α → EStateM ε σ PUnit} {l : List α} {s : σ} (P : σ → Prop)
    (hf : ∀ a t, P t → P (after (f a) t)) (hs : P s) : P (after (l.forM f) s) := by
  induction l generalizing s with
  | nil => exact hs
  | cons a l ih => exact after_bind P (hf a s hs) fun _ t _ ht => ih ht

end EStateM

variable {σ α : Type}

/-- A question leaves the state as it is. -/
theorem liftStop_eq_ok {x : Except Stop α} {s t : σ} {a : α} :
    (liftM x : EStateM Stop σ α) s = .ok a t ↔ x = .ok a ∧ s = t := by
  cases x <;> simp [liftM, monadLift, MonadLift.monadLift]

theorem liftFaultStop_eq_ok {x : Except Fault α} {s t : σ} {a : α} :
    (liftM x : EStateM Stop σ α) s = .ok a t ↔ x = .ok a ∧ s = t := by
  cases x <;> simp [liftM, monadLift, MonadLift.monadLift]

theorem atPlace_eq_ok {place : Place} {x : EStateM Stop σ α} {s t : σ} {a : α} :
    atPlace place x s = .ok a t ↔ x s = .ok a t := by
  simp only [atPlace]
  cases x s <;> simp

/-! ### Computations that stop -/

namespace Except

variable {ε α β : Type} {e : ε}

theorem bind_eq_error {x : Except ε α} {f : α → Except ε β} :
    (x >>= f) = .error e ↔ x = .error e ∨ ∃ a, x = .ok a ∧ f a = .error e := by
  cases x <;> simp [bind, Except.bind]

theorem map_eq_error {x : Except ε α} {f : α → β} : f <$> x = .error e ↔ x = .error e := by
  cases x <;> simp [Functor.map, Except.map]

theorem pure_ne_error {a : α} : (pure a : Except ε α) ≠ .error e := by
  simp [pure, Except.pure]

theorem throw_eq_error {e' : ε} : (throw e : Except ε α) = .error e' ↔ e = e' := by
  simp [throw, throwThe, MonadExceptOf.throw]

/-- If a list of computations stops, one of them does. -/
theorem exists_of_mapM_eq_error {f : α → Except ε β} {l : List α} (h : l.mapM f = .error e) :
    ∃ a ∈ l, f a = .error e := by
  induction l with
  | nil => exact absurd h pure_ne_error
  | cons a l ih =>
    simp only [List.mapM_cons, bind_eq_error, pure_ne_error, and_false, exists_false, or_false] at h
    rcases h with ha | ⟨b, -, hl⟩
    · exact ⟨a, List.mem_cons_self, ha⟩
    · obtain ⟨a', ha', hstop⟩ := ih hl
      exact ⟨a', List.mem_cons_of_mem _ ha', hstop⟩

/-- If every computation of a list gives an answer, the list does. -/
theorem exists_mapM_eq_ok {f : α → Except ε β} {l : List α} (h : ∀ a ∈ l, ∃ b, f a = .ok b) :
    ∃ bs, l.mapM f = .ok bs := by
  cases hl : l.mapM f with
  | ok bs => exact ⟨bs, rfl⟩
  | error e =>
    obtain ⟨a, ha, hstop⟩ := exists_of_mapM_eq_error hl
    obtain ⟨b, hb⟩ := h a ha
    cases hb.symm.trans hstop

theorem exists_of_forM_eq_error {f : α → Except ε Unit} {l : List α} (h : l.forM f = .error e) :
    ∃ a ∈ l, f a = .error e := by
  induction l with
  | nil => exact absurd h pure_ne_error
  | cons a l ih =>
    rcases bind_eq_error.1 h with ha | ⟨_, -, hl⟩
    · exact ⟨a, List.mem_cons_self, ha⟩
    · obtain ⟨a', ha', hstop⟩ := ih hl
      exact ⟨a', List.mem_cons_of_mem _ ha', hstop⟩

/-- A fold that stops does so at one of the elements, after it has passed those before. -/
theorem exists_of_foldlM_eq_error {g : β → α → Except ε β} {l : List α} {b : β}
    (h : l.foldlM g b = .error e) :
    ∃ before a after b', l = before ++ a :: after ∧ before.foldlM g b = .ok b' ∧
      g b' a = .error e := by
  induction l generalizing b with
  | nil => exact absurd h pure_ne_error
  | cons a l ih =>
    rw [List.foldlM_cons, bind_eq_error] at h
    rcases h with ha | ⟨c, hc, hl⟩
    · exact ⟨[], a, l, b, rfl, rfl, ha⟩
    · obtain ⟨before, a', after, b', rfl, hbefore, hstop⟩ := ih hl
      refine ⟨a :: before, a', after, b', rfl, ?_, hstop⟩
      rw [List.foldlM_cons, bind_eq_ok]
      exact ⟨c, hc, hbefore⟩

end Except

namespace EStateM

variable {ε σ α β : Type} {e e' : ε} {s t : σ}

theorem bind_eq_error {x : EStateM ε σ α} {f : α → EStateM ε σ β} :
    (x >>= f) s = .error e t ↔
      x s = .error e t ∨ ∃ a u, x s = .ok a u ∧ f a u = .error e t := by
  simp only [bind, EStateM.bind]
  cases x s <;> simp

theorem pure_ne_error {a : α} : (pure a : EStateM ε σ α) s ≠ .error e t := by
  simp [pure, EStateM.pure]

theorem get_ne_error : (get : EStateM ε σ σ) s ≠ .error e t := by
  simp [get, getThe, MonadStateOf.get, EStateM.get]

theorem throw_eq_error :
    (throw e : EStateM ε σ α) s = .error e' t ↔ e = e' ∧ s = t := by
  simp [throw, throwThe, MonadExceptOf.throw, EStateM.throw]

end EStateM

theorem Stop.ofCause_ne_fault {cause : Cause} {e : Fault} : Stop.ofCause cause ≠ .fault e := by
  simp [Stop.ofCause]

theorem liftFault_eq_fault {α : Type} {x : Except Fault α} {e : Fault} :
    (liftM x : Except Stop α) = .error (.fault e) ↔ x = .error e := by
  cases x <;> simp [liftM, monadLift, MonadLift.monadLift]

section Run

variable {s t : σ} {e : Fault}

theorem liftStop_eq_error {x : Except Stop α} {e : Stop} :
    (liftM x : EStateM Stop σ α) s = .error e t ↔ x = .error e ∧ s = t := by
  cases x <;> simp [liftM, monadLift, MonadLift.monadLift]

theorem liftFaultStop_eq_fault {x : Except Fault α} :
    (liftM x : EStateM Stop σ α) s = .error (.fault e) t ↔ x = .error e ∧ s = t := by
  cases x <;> simp [liftM, monadLift, MonadLift.monadLift]

/-- A fault passes through a place as it is. -/
theorem atPlace_eq_fault {place : Place} {x : EStateM Stop σ α} :
    atPlace place x s = .error (.fault e) t ↔ x s = .error (.fault e) t := by
  simp only [atPlace]
  cases x s with
  | ok a s => simp
  | error stop s => cases stop <;> simp [Stop.within]

/-- The fault that a run stopped with. -/
def fault? : EStateM.Result Stop σ α → Option Fault
  | .error (.fault e) _ => some e
  | _ => none

theorem eq_error_of_fault? {r : EStateM.Result Stop σ α} (h : fault? r = some e) :
    ∃ s, r = .error (.fault e) s := by
  cases r with
  | ok a s => cases h
  | error stop s =>
    cases stop with
    | error err => cases h
    | fault e' => exact ⟨s, by rw [Option.some.inj h]⟩

end Run

/-! ### What computations give and keep -/

namespace EStateM

variable {ε σ α β : Type} {P : σ → Prop}

/-- What a computation gives, without the state that it leaves. -/
def outcome (x : EStateM ε σ α) (s : σ) : Except ε α :=
  match x s with
  | .ok a _ => .ok a
  | .error e _ => .error e

theorem outcome_eq_ok {x : EStateM ε σ α} {s : σ} {a : α} :
    outcome x s = .ok a ↔ ∃ t, x s = .ok a t := by
  rw [outcome]
  cases x s <;> simp

/-- Two steps in sequence give the same in two states if the first one does and the second one
cannot tell the states apart that it finds. -/
theorem outcome_bind_congr {x : EStateM ε σ α} {f : α → EStateM ε σ β} {s s' : σ}
    (hx : outcome x s = outcome x s')
    (hf : ∀ a t t', x s = .ok a t → x s' = .ok a t' → outcome (f a) t = outcome (f a) t') :
    outcome (x >>= f) s = outcome (x >>= f) s' := by
  simp only [outcome, bind, EStateM.bind] at hx hf ⊢
  cases hs : x s with
  | ok a t =>
    cases hs' : x s' with
    | ok a' t' =>
      obtain rfl : a = a' := by simpa [hs, hs'] using hx
      exact hf a t t' hs hs'
    | error e' t' => simp [hs, hs'] at hx
  | error e t =>
    cases hs' : x s' with
    | ok a' t' => simp [hs, hs'] at hx
    | error e' t' => simpa [hs, hs'] using hx

/-- What is given by two steps in sequence, from what each of them gives. -/
theorem outcome_bind {x : EStateM ε σ α} {f : α → EStateM ε σ β} {y : Except ε α}
    {g : α → Except ε β} {s : σ} (hx : outcome x s = y)
    (hf : ∀ a t, x s = .ok a t → outcome (f a) t = g a) : outcome (x >>= f) s = y >>= g := by
  subst hx
  simp only [outcome, bind, EStateM.bind] at hf ⊢
  cases hs : x s with
  | ok a t => exact hf a t hs
  | error e t => rfl

/-- A computation keeps a property of the state, whether it gives an answer or stops. -/
def Maintains (P : σ → Prop) (x : EStateM ε σ α) : Prop := ∀ s, P s → P (after x s)

theorem Maintains.bind {x : EStateM ε σ α} {f : α → EStateM ε σ β} (hx : Maintains P x)
    (hf : ∀ a, Maintains P (f a)) : Maintains P (x >>= f) :=
  fun s hs => after_bind P (hx s hs) fun a t _ ht => hf a t ht

/-- What follows a step may use what the step gave. -/
theorem Maintains.bind_ok {x : EStateM ε σ α} {f : α → EStateM ε σ β} (hx : Maintains P x)
    (hf : ∀ a s t, x s = .ok a t → Maintains P (f a)) : Maintains P (x >>= f) :=
  fun s hs => after_bind P (hx s hs) fun a t ha ht => hf a s t ha t ht

theorem maintains_pure (a : α) : Maintains P (pure a : EStateM ε σ α) := fun _ hs => hs

theorem maintains_throw (e : ε) : Maintains P (throw e : EStateM ε σ α) := fun _ hs => hs

theorem maintains_set {s : σ} (hs : P s) : Maintains P (set s : EStateM ε σ PUnit) :=
  fun _ _ => hs

theorem maintains_modify {g : σ → σ} (hg : ∀ s, P s → P (g s)) :
    Maintains P (modify g : EStateM ε σ PUnit) := hg

/-- What is done with the state may use that the state has the property. -/
theorem maintains_get_bind {f : σ → EStateM ε σ β} (hf : ∀ s, P s → Maintains P (f s)) :
    Maintains P (get >>= f) := fun s hs => hf s hs s hs

theorem Maintains.ite {p : Prop} [Decidable p] {x y : EStateM ε σ α} (hx : Maintains P x)
    (hy : Maintains P y) : Maintains P (if p then x else y) := by
  split
  · exact hx
  · exact hy

theorem Maintains.mapM {f : α → EStateM ε σ β} (hf : ∀ a, Maintains P (f a)) (l : List α) :
    Maintains P (l.mapM f) := by
  induction l with
  | nil => exact maintains_pure _
  | cons a l ih =>
    rw [List.mapM_cons]
    exact (hf a).bind fun _ => ih.bind fun _ => maintains_pure _

/-- A list of computations that keep what each of them relies on gives what they give. -/
theorem outcome_mapM {f : α → EStateM ε σ β} {g : α → Except ε β} (hP : ∀ a, Maintains P (f a))
    (hg : ∀ a s, P s → outcome (f a) s = g a) (l : List α) {s : σ} (hs : P s) :
    outcome (l.mapM f) s = l.mapM g := by
  induction l generalizing s with
  | nil => rfl
  | cons a l ih =>
    rw [List.mapM_cons, List.mapM_cons]
    refine outcome_bind (hg a s hs) fun b t ht => outcome_bind (ih ?_) fun bs _ _ => rfl
    exact after_eq_of_ok ht ▸ hP a s hs

theorem Maintains.foldlM {f : β → α → EStateM ε σ β} (hf : ∀ b a, Maintains P (f b a))
    (l : List α) (b : β) : Maintains P (l.foldlM f b) := by
  induction l generalizing b with
  | nil => exact maintains_pure _
  | cons a l ih =>
    rw [List.foldlM_cons]
    exact (hf b a).bind ih

end EStateM

section Place

variable {σ α : Type} {P : σ → Prop}

theorem maintains_lift (x : Except Stop α) : EStateM.Maintains P (liftM x : EStateM Stop σ α) := by
  intro s hs
  cases x <;> exact hs

theorem maintains_liftFault (x : Except Fault α) :
    EStateM.Maintains P (liftM x : EStateM Stop σ α) := by
  intro s hs
  cases x <;> exact hs

theorem after_atPlace (place : Place) (x : EStateM Stop σ α) (s : σ) :
    EStateM.after (atPlace place x) s = EStateM.after x s := by
  simp only [EStateM.after, atPlace]
  cases x s <;> rfl

theorem outcome_atPlace (place : Place) (x : EStateM Stop σ α) (s : σ) :
    EStateM.outcome (atPlace place x) s = (EStateM.outcome x s).mapError (·.within place) := by
  simp only [EStateM.outcome, atPlace]
  cases x s <;> rfl

theorem EStateM.Maintains.atPlace {x : EStateM Stop σ α} (hx : Maintains P x) (place : Place) :
    Maintains P (atPlace place x) :=
  fun s hs => (after_atPlace place x s).symm ▸ hx s hs

end Place

end Codegen
