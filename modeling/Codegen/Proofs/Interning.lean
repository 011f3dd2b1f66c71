import Codegen.Proofs.Known

/-!
# Types and their numbers

A type is found in its table by its key, a text in which the components are numbers. Numbers of
different components can be told apart in it, since something that is no digit follows each of them,
so that a key belongs to one type. A type that is added is made of types that have numbers already.
By induction on the numbers, two numbers are the same exactly if the types are built in the same way
all the way down.

## Main definitions

* `Shape`: how a type is built, without numbers; `Shape.size`, `Shape.text`: its bytes and its text.
* `Ty.Denotes`, `TypeTable.Denotes`: the shape of a type and of a number in a table.
* `TypeTable.Extends`: tables in which the types of another one have kept their numbers.
* `TypeTable.Regular`: tables that only hold types made of earlier ones, each type once.
* `TypeTable.ask`, `TypeTable.askAll`: requests for types.

## Main results

* `Ty.key_injective`: different types have different keys.
* `TypeTable.intern_cases`: a type is in the table already, or it is added.
* `TypeTable.Regular.denotes_inj`: a shape has one number.
* `TypeTable.Denotes.sizeWithin_eq`, `TypeTable.Denotes.textWithin_eq`: what is computed for a
  number.
* `TypeTable.askAll_interns`: any sequence of requests.
-/

namespace Codegen

/-! ### Keys -/

/-- Characters that do not go on with a number. -/
def Break (l : List Char) : Prop := ∀ c ∈ l.head?, c.isDigit = false

theorem takeWhile_digits (n : Nat) {l : List Char} (hl : Break l) :
    (Nat.toDigits 10 n ++ l).takeWhile Char.isDigit = Nat.toDigits 10 n := by
  have hdigits : ∀ c ∈ Nat.toDigits 10 n, c.isDigit = true := fun c hc =>
    Nat.isDigit_of_mem_toDigits (by decide) (by decide) hc
  rw [List.takeWhile_append_of_pos hdigits]
  cases l with
  | nil => simp
  | cons c l => simp [hl c rfl]

/-- A number can be read off in front of anything that does not go on with it. -/
theorem digits_append_inj {m n : Nat} {l l' : List Char} (hl : Break l) (hl' : Break l')
    (h : Nat.toDigits 10 m ++ l = Nat.toDigits 10 n ++ l') : m = n ∧ l = l' := by
  have hdigits : Nat.toDigits 10 m = Nat.toDigits 10 n := by
    rw [← takeWhile_digits m hl, h, takeWhile_digits n hl']
  refine ⟨?_, List.append_cancel_left (hdigits ▸ h)⟩
  rw [← Nat.ofDigitChars_ten_toDigits (n := m), hdigits, Nat.ofDigitChars_ten_toDigits]

theorem not_break_digits (n : Nat) (l : List Char) : ¬Break (Nat.toDigits 10 n ++ l) := by
  intro h
  obtain ⟨c, ds, hds⟩ := List.exists_cons_of_ne_nil (Nat.toDigits_ne_nil (b := 10) (n := n))
  have hc : c.isDigit = true :=
    Nat.isDigit_of_mem_toDigits (b := 10) (n := n) (by decide) (by decide) (by simp [hds])
  rw [h c (by simp [hds])] at hc
  cases hc

/-- The characters of some numbers, each with a comma behind it. -/
def commaDigits (ns : List Nat) : List Char := ns.flatMap (Nat.toDigits 10 · ++ [','])

theorem commaDigits_cons_append (n : Nat) (ns : List Nat) (l : List Char) :
    commaDigits (n :: ns) ++ l = Nat.toDigits 10 n ++ ',' :: (commaDigits ns ++ l) := by
  simp [commaDigits]

theorem commaDigits_append_inj {ms ns : List Nat} {l l' : List Char} (hl : Break l)
    (hl' : Break l') (h : commaDigits ms ++ l = commaDigits ns ++ l') : ms = ns ∧ l = l' := by
  have hcomma (l : List Char) : Break (',' :: l) := fun c hc => Option.some.inj hc ▸ rfl
  induction ms generalizing ns with
  | nil =>
    cases ns with
    | nil => exact ⟨rfl, h⟩
    | cons n ns =>
      rw [commaDigits_cons_append] at h
      obtain rfl : l = _ := h
      exact absurd hl (not_break_digits n _)
  | cons m ms ih =>
    rw [commaDigits_cons_append] at h
    cases ns with
    | nil =>
      obtain rfl : _ = l' := h
      exact absurd hl' (not_break_digits m _)
    | cons n ns =>
      rw [commaDigits_cons_append] at h
      obtain ⟨rfl, hrest⟩ := digits_append_inj (hcomma _) (hcomma _) h
      obtain ⟨rfl, hend⟩ := ih (List.cons.inj hrest).2
      exact ⟨rfl, hend⟩

namespace Ty

/-- The characters at the end of the key of a function type. -/
def keyEnd (variadic : Bool) : List Char := if variadic then ['.', '.', '.', ')'] else [')']

/-- The characters of a key. -/
theorem toList_key (ty : Ty) : ty.key.toList = match ty with
    | .void => ['v']
    | .int bits => 'i' :: (Nat.toDigits 10 bits ++ [])
    | .pointer elem => 'p' :: (Nat.toDigits 10 elem ++ [])
    | .array length elem =>
      'a' :: (Nat.toDigits 10 length.toNat ++ ',' :: (Nat.toDigits 10 elem ++ []))
    | .function result params variadic =>
      'f' :: (Nat.toDigits 10 result ++ '(' :: (commaDigits params ++ keyEnd variadic)) := by
  have htext (s : String) : toString s = s := rfl
  cases ty with
  | void => rfl
  | int bits => simp [key, htext]
  | pointer elem => simp [key, htext]
  | array length elem =>
    have hlength : (toString length).toList = Nat.toDigits 10 length.toNat := by
      change (Nat.repr length.toNat).toList = _
      simp
    simp [key, htext, hlength]
  | function result params variadic =>
    cases variadic <;> simp [key, htext, keyEnd, commaDigits, List.flatMap_map]

/-- Different types have different keys. -/
theorem key_injective : Function.Injective key := by
  intro ty ty' h
  have hchars := congrArg String.toList h
  rw [toList_key, toList_key] at hchars
  have hnil : Break [] := nofun
  cases ty with
  | void =>
    cases ty' with
    | void => rfl
    | _ => cases hchars
  | int bits =>
    cases ty' with
    | int bits' => rw [(digits_append_inj hnil hnil (List.cons.inj hchars).2).1]
    | _ => cases hchars
  | pointer elem =>
    cases ty' with
    | pointer elem' => rw [(digits_append_inj hnil hnil (List.cons.inj hchars).2).1]
    | _ => cases hchars
  | array length elem =>
    cases ty' with
    | array length' elem' =>
      obtain ⟨hlength, hrest⟩ := digits_append_inj (by simp [Break]) (by simp [Break])
        (List.cons.inj hchars).2
      rw [UInt64.toNat_inj.1 hlength, (digits_append_inj hnil hnil (List.cons.inj hrest).2).1]
    | _ => cases hchars
  | function result params variadic =>
    cases ty' with
    | function result' params' variadic' =>
      obtain ⟨rfl, hrest⟩ := digits_append_inj (by simp [Break]) (by simp [Break])
        (List.cons.inj hchars).2
      have hbreak : ∀ variadic, Break (keyEnd variadic) := by simp [Break, keyEnd]
      have hend : ∀ variadic variadic', keyEnd variadic = keyEnd variadic' →
          variadic = variadic' := by decide
      obtain ⟨rfl, hvariadic⟩ :=
        commaDigits_append_inj (hbreak _) (hbreak _) (List.cons.inj hrest).2
      rw [hend _ _ hvariadic]
    | _ => cases hchars

end Ty

/-! ### Adding types -/

namespace TypeTable

variable {t t' t'' : TypeTable} {id id' : TypeId} {ty : Ty}

/-- A type is in the table already, or it is added. -/
theorem intern_cases (t : TypeTable) (ty : Ty) :
    (∃ n : Nat, t.entries[n]? = some ty ∧ t.intern ty = (n + 1, t)) ∨
    (∀ n : Nat, t.entries[n]? ≠ some ty) ∧
      t.intern ty = (t.entries.size + 1, ⟨t.entries.push ty⟩) := by
  unfold intern
  split
  · next n hn =>
    obtain ⟨hlt, hkey, -⟩ := List.findIdx?_eq_some_iff_getElem.1 hn
    refine .inl ⟨n, ?_, rfl⟩
    rw [Array.getElem?_eq_getElem hlt, ← Array.getElem_toList, Ty.key_injective (eq_of_beq hkey)]
  · next hnone =>
    refine .inr ⟨fun n hn => ?_, rfl⟩
    have hmem : ty ∈ t.entries.toList := Array.mem_toList_iff.2 (Array.mem_of_getElem? hn)
    simpa using List.findIdx?_eq_none_iff.1 hnone ty hmem

/-- A table in which all types of another one have kept their numbers. -/
def Extends (t t' : TypeTable) : Prop :=
  ∀ (id : TypeId) (ty : Ty), t.get? id = some ty → t'.get? id = some ty

theorem Extends.refl (t : TypeTable) : t.Extends t := fun _ _ hid => hid

theorem Extends.trans (h : t.Extends t') (h' : t'.Extends t'') : t.Extends t'' :=
  fun id ty hid => h' id ty (h id ty hid)

theorem get?_eq_some : t.get? id = some ty ↔ ∃ n, id = n + 1 ∧ t.entries[n]? = some ty := by
  cases id with
  | zero => simp [get?]
  | succ n => simp [get?]

theorem getElem?_push_of_some {n : Nat} {ty' : Ty} (h : t.entries[n]? = some ty) :
    (t.entries.push ty')[n]? = some ty := by
  have hlt : n < t.entries.size := (Array.getElem?_eq_some_iff.1 h).1
  rw [Array.getElem?_push, if_neg (Nat.ne_of_lt hlt), h]

theorem extends_intern (t : TypeTable) (ty : Ty) : t.Extends (t.intern ty).2 := by
  rcases t.intern_cases ty with ⟨n, -, h⟩ | ⟨-, h⟩ <;> rw [h]
  · exact .refl t
  · intro id ty' hid
    obtain ⟨n, rfl, hn⟩ := get?_eq_some.1 hid
    exact getElem?_push_of_some hn

theorem get?_intern (t : TypeTable) (ty : Ty) :
    (t.intern ty).2.get? (t.intern ty).1 = some ty := by
  rcases t.intern_cases ty with ⟨n, hn, h⟩ | ⟨-, h⟩ <;> rw [h]
  · exact hn
  · simp [get?]

end TypeTable

/-! ### Shapes -/

/-- How a type is built, all the way down. -/
inductive Shape where
  | void
  | int (bits : Nat)
  /-- A pointer to nothing that is known. -/
  | address
  | pointer (elem : Shape)
  | array (length : UInt64) (elem : Shape)
  | function (result : Shape) (params : List Shape) (variadic : Bool)

namespace Shape

/-- The number of bytes of a value. -/
def size : Shape → Nat
  | void => 0
  | int bits => (bits + 7) / 8
  | address => 8
  | pointer _ => 8
  | array length elem => length.toNat * elem.size
  | function _ _ _ => 0

mutual

/-- The text of a type. -/
def text : Shape → String
  | void => "void"
  | int bits => s!"i{bits}"
  | address => "ptr"
  | pointer elem => elem.text ++ "*"
  | array length elem => s!"[{length} x " ++ elem.text ++ "]"
  | function result params variadic =>
    let ellipsis := if variadic then ["..."] else []
    result.text ++ " (" ++ ", ".intercalate (texts params ++ ellipsis) ++ ")"

/-- The texts of some types. -/
def texts : List Shape → List String
  | [] => []
  | s :: ss => s.text :: texts ss

end

theorem texts_eq_map (ss : List Shape) : texts ss = ss.map text := by
  induction ss with
  | nil => rfl
  | cons s ss ih => rw [texts, ih, List.map_cons]

end Shape

mutual

/-- The shape of a type whose components are numbers of a table. -/
inductive Ty.Denotes (t : TypeTable) : Ty → Shape → Prop
  | void : Ty.Denotes t .void .void
  | int {bits : Nat} : Ty.Denotes t (.int bits) (.int bits)
  | address : Ty.Denotes t (.pointer TypeId.invalid) .address
  | pointer {e : TypeId} {s : Shape} (he : TypeTable.Denotes t e s) :
      Ty.Denotes t (.pointer e) (.pointer s)
  | array {n : UInt64} {e : TypeId} {s : Shape} (he : TypeTable.Denotes t e s) :
      Ty.Denotes t (.array n e) (.array n s)
  | function {r : TypeId} {ps : List TypeId} {variadic : Bool} {s : Shape} {ss : List Shape}
      (hr : TypeTable.Denotes t r s) (hps : List.Forall₂ (TypeTable.Denotes t) ps ss) :
      Ty.Denotes t (.function r ps variadic) (.function s ss variadic)

/-- The shape of the type that a number stands for in a table. -/
inductive TypeTable.Denotes (t : TypeTable) : TypeId → Shape → Prop
  | entry {id : TypeId} {ty : Ty} {s : Shape} (hid : t.get? id = some ty)
      (hs : Ty.Denotes t ty s) : TypeTable.Denotes t id s

end

/-- Only a pointer may lead to the invalid type. -/
def Ty.Proper : Ty → Prop
  | .pointer _ => True
  | ty => ∀ c ∈ ty.components, c ≠ TypeId.invalid

instance : DecidablePred Ty.Proper
  | .pointer _ => .isTrue trivial
  | .void => inferInstanceAs (Decidable (∀ c ∈ Ty.void.components, c ≠ TypeId.invalid))
  | .int bits => inferInstanceAs (Decidable (∀ c ∈ (Ty.int bits).components, c ≠ TypeId.invalid))
  | .array n e =>
    inferInstanceAs (Decidable (∀ c ∈ (Ty.array n e).components, c ≠ TypeId.invalid))
  | .function r ps v =>
    inferInstanceAs (Decidable (∀ c ∈ (Ty.function r ps v).components, c ≠ TypeId.invalid))

/-- A relation that leads from every element of a list to something. -/
theorem exists_forall₂ {α β : Type} {R : α → β → Prop} {l : List α} (h : ∀ a ∈ l, ∃ b, R a b) :
    ∃ r, List.Forall₂ R l r := by
  induction l with
  | nil => exact ⟨[], .nil⟩
  | cons a l ih =>
    obtain ⟨⟨b, hb⟩, hl⟩ := List.forall_mem_cons.1 h
    obtain ⟨r, hr⟩ := ih hl
    exact ⟨b :: r, .cons hb hr⟩

namespace TypeTable

variable {t t' : TypeTable} {id id' : TypeId} {ty : Ty} {s s' : Shape}

/-- Every type is made of types before it, and no type is there twice. -/
structure Regular (t : TypeTable) : Prop where
  grounded : t.Grounded
  proper : ∀ {n : Nat} {ty : Ty}, t.entries[n]? = some ty → ty.Proper
  distinct : ∀ {n m : Nat} {ty : Ty}, t.entries[n]? = some ty → t.entries[m]? = some ty → n = m

theorem Regular.start : Regular {} := by
  have hentry {n : Nat} {ty : Ty} (hn : ({} : TypeTable).entries[n]? = some ty) :
      n = 0 ∧ ty = .void := by
    cases n with
    | zero => exact ⟨rfl, (Option.some.inj hn).symm⟩
    | succ n => simp at hn
  refine ⟨.start, fun hn => ?_, fun hn hm => (hentry hn).1.trans (hentry hm).1.symm⟩
  obtain ⟨-, rfl⟩ := hentry hn
  simp [Ty.Proper, Ty.components]

/-- A table stays regular if a type is added whose components it has. -/
theorem Regular.intern (h : t.Regular) (hty : ∀ c ∈ ty.components, c ≤ t.entries.size)
    (hproper : ty.Proper) : (t.intern ty).2.Regular := by
  refine ⟨h.grounded.intern ty hty, ?_, ?_⟩ <;>
    rcases t.intern_cases ty with ⟨n, -, hintern⟩ | ⟨hnew, hintern⟩ <;> rw [hintern]
  · exact h.proper
  · intro n ty' hn
    rw [Array.getElem?_push] at hn
    split at hn
    · exact Option.some.inj hn ▸ hproper
    · exact h.proper hn
  · exact h.distinct
  · intro n m ty' hn hm
    rw [Array.getElem?_push] at hn hm
    split at hn <;> split at hm
    · next hn' hm' => exact hn'.trans hm'.symm
    · exact absurd (Option.some.inj hn ▸ hm) (hnew m)
    · exact absurd (Option.some.inj hm ▸ hn) (hnew n)
    · exact h.distinct hn hm

/-- The components of a type have smaller numbers than the type. -/
theorem Grounded.component_lt (h : t.Grounded) (hid : t.get? id = some ty) :
    ∀ c ∈ ty.components, c < id := by
  obtain ⟨n, rfl, hn⟩ := get?_eq_some.1 hid
  exact fun c hc => Nat.lt_succ_of_le (h n ty hn c hc)

theorem le_size_of_get? (hid : t.get? id = some ty) : id ≤ t.entries.size := by
  obtain ⟨n, rfl, hn⟩ := get?_eq_some.1 hid
  exact (Array.getElem?_eq_some_iff.1 hn).1

/-! ### What numbers stand for -/

theorem not_denotes_invalid : ¬t.Denotes TypeId.invalid s := by
  rintro ⟨hid, -⟩
  cases hid

end TypeTable

namespace Ty

variable {t t' : TypeTable} {ty ty' : Ty} {s s' : Shape}

/-- A type has a shape if its components have. -/
theorem exists_denotes (hproper : ty.Proper)
    (hc : ∀ c ∈ ty.components, c ≠ TypeId.invalid → ∃ s, t.Denotes c s) : ∃ s, ty.Denotes t s := by
  cases ty with
  | void => exact ⟨_, .void⟩
  | int bits => exact ⟨_, .int⟩
  | pointer e =>
    by_cases he : e = TypeId.invalid
    · exact ⟨.address, he ▸ .address⟩
    · obtain ⟨s, hs⟩ := hc e (by simp [components]) he
      exact ⟨_, .pointer hs⟩
  | array n e =>
    have he : e ∈ (array n e).components := by simp [components]
    obtain ⟨s, hs⟩ := hc e he (hproper e he)
    exact ⟨_, .array hs⟩
  | function r ps variadic =>
    have hc : ∀ c ∈ r :: ps, ∃ s, t.Denotes c s := fun c hmem => hc c hmem (hproper c hmem)
    obtain ⟨⟨s, hs⟩, hps⟩ := List.forall_mem_cons.1 hc
    obtain ⟨ss, hss⟩ := exists_forall₂ hps
    exact ⟨_, .function hs hss⟩

/-- A type has one shape if its components have. -/
theorem Denotes.unique (hc : ∀ c ∈ ty.components, ∀ s s', t.Denotes c s → t.Denotes c s' → s = s')
    (h : ty.Denotes t s) (h' : ty.Denotes t s') : s = s' := by
  cases h with
  | void | int =>
    cases h'
    rfl
  | address =>
    cases h' with
    | address => rfl
    | pointer he => exact absurd he TypeTable.not_denotes_invalid
  | pointer he =>
    cases h' with
    | address => exact absurd he TypeTable.not_denotes_invalid
    | pointer he' => rw [hc _ (by simp [components]) _ _ he he']
  | array he =>
    cases h' with
    | array he' => rw [hc _ (by simp [components]) _ _ he he']
  | @function r ps _ _ ss hr hps =>
    cases h' with
    | @function _ _ _ _ ss' hr' hps' =>
      have hss : ss = ss' := by
        refine List.ext_get (hps.length_eq.symm.trans hps'.length_eq) fun n hn hn' => ?_
        have hlt : n < ps.length := hps.length_eq ▸ hn
        exact hc _ (List.mem_cons_of_mem _ (List.get_mem ps ⟨n, hlt⟩)) _ _ (hps.get hlt hn)
          (hps'.get hlt hn')
      rw [hc r List.mem_cons_self _ _ hr hr', hss]

/-- A shape belongs to one type if those of the components belong to one number. -/
theorem Denotes.inj (hc : ∀ c ∈ ty.components, ∀ c' s, t.Denotes c s → t.Denotes c' s → c = c')
    (h : ty.Denotes t s) (h' : ty'.Denotes t s) : ty = ty' := by
  cases h with
  | void | int | address =>
    cases h'
    rfl
  | pointer he =>
    cases h' with
    | pointer he' => rw [hc _ (by simp [components]) _ _ he he']
  | array he =>
    cases h' with
    | array he' => rw [hc _ (by simp [components]) _ _ he he']
  | @function r ps _ _ ss hr hps =>
    cases h' with
    | @function r' ps' _ _ _ hr' hps' =>
      have hps_eq : ps = ps' := by
        refine List.ext_get (hps.length_eq.trans hps'.length_eq.symm) fun n hn hn' => ?_
        have hlt : n < ss.length := hps.length_eq ▸ hn
        exact hc _ (List.mem_cons_of_mem _ (List.get_mem ps ⟨n, hn⟩)) _ _ (hps.get hn hlt)
          (hps'.get hn' hlt)
      rw [hc r List.mem_cons_self _ _ hr hr', hps_eq]

/-- A type keeps its shape if its components do. -/
theorem Denotes.mono (hc : ∀ c ∈ ty.components, ∀ s, t.Denotes c s → t'.Denotes c s)
    (h : ty.Denotes t s) : ty.Denotes t' s := by
  cases h with
  | void => exact .void
  | int => exact .int
  | address => exact .address
  | pointer he => exact .pointer (hc _ (by simp [components]) _ he)
  | array he => exact .array (hc _ (by simp [components]) _ he)
  | function hr hps =>
    obtain ⟨hcr, hcps⟩ := List.forall_mem_cons.1 hc
    refine .function (hcr _ hr) ?_
    exact ((List.forall₂_and_left _ _).2 ⟨hcps, hps⟩).imp fun p s h => h.1 s h.2

end Ty

namespace TypeTable

variable {t t' : TypeTable} {id id' : TypeId} {ty : Ty} {s s' : Shape}

/-- Every number of a regular table stands for a shape: its components have smaller numbers. -/
theorem Regular.exists_denotes (h : t.Regular) (hid : t.get? id = some ty) :
    ∃ s, t.Denotes id s := by
  induction id using Nat.strongRecOn generalizing ty with
  | _ id ih =>
    obtain ⟨n, rfl, hn⟩ := get?_eq_some.1 hid
    have hc : ∀ c ∈ ty.components, c ≠ TypeId.invalid → ∃ s, t.Denotes c s := by
      intro c hc hne
      have hlt := h.grounded.component_lt hid c hc
      obtain ⟨m, ty', rfl, hm, -⟩ := exists_get? hne
        (Nat.le_trans (Nat.le_of_lt hlt) (le_size_of_get? hid))
      have hget : t.get? (m + 1) = some ty' := hm
      exact ih (m + 1) hlt hget
    obtain ⟨s, hs⟩ := Ty.exists_denotes (h.proper hn) hc
    exact ⟨s, .entry hid hs⟩

/-- A number of a regular table stands for one shape. -/
theorem Regular.denotes_unique (h : t.Regular) (hs : t.Denotes id s) (hs' : t.Denotes id s') :
    s = s' := by
  induction id using Nat.strongRecOn generalizing s s' with
  | _ id ih =>
    obtain ⟨hid, hty⟩ := hs
    obtain ⟨hid', hty'⟩ := hs'
    obtain rfl := Option.some.inj (hid.symm.trans hid')
    exact hty.unique (fun c hc s s' => ih c (h.grounded.component_lt hid c hc)) hty'

/-- A shape has one number in a regular table. -/
theorem Regular.denotes_inj (h : t.Regular) (hs : t.Denotes id s) (hs' : t.Denotes id' s) :
    id = id' := by
  induction id using Nat.strongRecOn generalizing id' s with
  | _ id ih =>
    obtain ⟨hid, hty⟩ := hs
    obtain ⟨hid', hty'⟩ := hs'
    have hsame := hty.inj (fun c hc c' s => ih c (h.grounded.component_lt hid c hc)) hty'
    subst hsame
    obtain ⟨n, rfl, hn⟩ := get?_eq_some.1 hid
    obtain ⟨m, rfl, hm⟩ := get?_eq_some.1 hid'
    rw [h.distinct hn hm]

/-- Numbers keep their shapes when types are added. -/
theorem Denotes.mono (hs : t.Denotes id s) (h : t.Grounded) (hext : t.Extends t') :
    t'.Denotes id s := by
  induction id using Nat.strongRecOn generalizing s with
  | _ id ih =>
    obtain ⟨hid, hty⟩ := hs
    exact .entry (hext id _ hid) (hty.mono fun c hc s hs => ih c (h.component_lt hid c hc) hs)

/-! ### Size and text -/

theorem get_of_get? (hid : t.get? id = some ty) : t.get id = .ok ty := by
  rw [TypeTable.get, hid]

/-- The bytes of a number, modulo `2 ^ 64`. It may be unfolded any deeper. -/
theorem Denotes.sizeWithin_eq (hs : t.Denotes id s) (h : t.Grounded) {depth : Nat}
    (hd : id < depth) : t.sizeWithin depth id = .ok (UInt64.ofNat s.size) := by
  induction depth generalizing id s with
  | zero => exact absurd hd (Nat.not_lt_zero _)
  | succ depth ih =>
    obtain ⟨hid, hty⟩ := hs
    rw [sizeWithin, get_of_get? hid]
    cases hty with
    | void | int | address | pointer | function => rfl
    | @array n e s he =>
      have hlt := h.component_lt hid e (by simp [Ty.components])
      change (t.sizeWithin depth e >>= fun size => pure (size * n)) = _
      rw [ih he (Nat.lt_of_lt_of_le hlt (Nat.le_of_lt_succ hd)), Shape.size, UInt64.ofNat_mul,
        UInt64.ofNat_toNat, UInt64.mul_comm]
      rfl

/-- The text of a number. It may be unfolded any deeper. -/
theorem Denotes.textWithin_eq (hs : t.Denotes id s) (h : t.Grounded) {depth : Nat}
    (hd : id < depth) : t.textWithin depth id = .ok s.text := by
  induction depth generalizing id s with
  | zero => exact absurd hd (Nat.not_lt_zero _)
  | succ depth ih =>
    obtain ⟨hid, hty⟩ := hs
    have hne : id ≠ TypeId.invalid := by
      rintro rfl
      cases hid
    have hc {c : TypeId} (hc : c < id) : c < depth :=
      Nat.lt_of_lt_of_le hc (Nat.le_of_lt_succ hd)
    rw [textWithin, if_neg hne, get_of_get? hid]
    cases hty with
    | void | int | address => rfl
    | @pointer e s he =>
      have hne : e ≠ TypeId.invalid := by
        rintro rfl
        exact not_denotes_invalid he
      have htext := ih he (hc (h.component_lt hid e (by simp [Ty.components])))
      simp [bind, Except.bind, hne, htext, pure, Except.pure, Shape.text]
    | @array n e s he =>
      have htext := ih he (hc (h.component_lt hid e (by simp [Ty.components])))
      simp [bind, Except.bind, htext, pure, Except.pure, Shape.text]
    | @function r ps variadic s ss hr hps =>
      have hlt := h.component_lt hid
      have htext := ih hr (hc (hlt r (by simp [Ty.components])))
      have htexts : ps.mapM (t.textWithin depth) = .ok (Shape.texts ss) := by
        rw [Except.mapM_eq_ok, Shape.texts_eq_map, List.forall₂_map_right_iff]
        have hlt : ∀ p ∈ ps, p < id := fun p hp => hlt p (by simp [Ty.components, hp])
        exact ((List.forall₂_and_left _ _).2 ⟨hlt, hps⟩).imp fun p s hp => ih hp.2 (hc hp.1)
      cases variadic <;>
        simp [bind, Except.bind, htext, htexts, pure, Except.pure, Shape.text]

/-! ### Requests -/

/-- A request for a type, and the table that it leaves. -/
def ask (t : TypeTable) : Ty → Except Fault (TypeId × TypeTable)
  | .void => .ok (TypeId.void, t)
  | .int bits => t.int bits
  | .pointer elem => .ok (t.pointer elem)
  | .array length elem => .ok (t.array elem length)
  | .function result params variadic => .ok (t.function result params variadic)

/-- Some requests, one after the other. -/
def askAll (t : TypeTable) : List Ty → Except Fault (List TypeId × TypeTable)
  | [] => .ok ([], t)
  | ty :: tys => do
    let (id, t) ← t.ask ty
    let (ids, t) ← t.askAll tys
    return (id :: ids, t)

theorem askAll_cons_eq_ok {tys : List Ty} {ids : List TypeId} {t'' : TypeTable}
    (hask : t.ask ty = .ok (id, t')) (hrest : t'.askAll tys = .ok (ids, t'')) :
    t.askAll (ty :: tys) = .ok (id :: ids, t'') :=
  Except.bind_eq_ok.2 ⟨(id, t'), hask, Except.bind_eq_ok.2 ⟨(ids, t''), hrest, rfl⟩⟩

/-- The requests that a table admits: an integer has some bits, the components are in the table, and
only a pointer may lead to the invalid type. -/
def Admits (t : TypeTable) (ty : Ty) : Prop :=
  ty ≠ .int 0 ∧ (∀ c ∈ ty.components, c ≤ t.entries.size) ∧ ty.Proper

/-- Each of some requests is admitted when it is made. -/
def AdmitsAll (t : TypeTable) : List Ty → Prop
  | [] => True
  | ty :: tys => t.Admits ty ∧ ∀ id t', t.ask ty = .ok (id, t') → t'.AdmitsAll tys

instance (t : TypeTable) (ty : Ty) : Decidable (t.Admits ty) :=
  inferInstanceAs (Decidable (_ ∧ _ ∧ _))

/-- Whether each of some requests is admitted can be found out by making them. -/
instance decidableAdmitsAll : ∀ (t : TypeTable) (tys : List Ty), Decidable (t.AdmitsAll tys)
  | _, [] => .isTrue trivial
  | t, ty :: tys =>
    match hask : t.ask ty with
    | .error e => decidable_of_iff (t.Admits ty)
      ⟨fun h => ⟨h, fun _ _ hok => nomatch hask.symm.trans hok⟩, fun h => h.1⟩
    | .ok (id, t') =>
      have := decidableAdmitsAll t' tys
      decidable_of_iff (t.Admits ty ∧ t'.AdmitsAll tys)
        ⟨fun h => ⟨h.1, fun _ _ hok => by cases hask.symm.trans hok; exact h.2⟩,
          fun h => ⟨h.1, h.2 id t' hask⟩⟩

/-- A regular table with `void` in the first place. -/
structure Sound (t : TypeTable) : Prop extends Regular t where
  void : t.entries[0]? = some .void

theorem sound_start : Sound {} := ⟨.start, rfl⟩

/-- What an admitted request does: it is a search for the type, which is added if it is not there.
-/
theorem Sound.ask_eq (h : t.Sound) (hty : t.Admits ty) : t.ask ty = .ok (t.intern ty) := by
  cases ty with
  | void =>
    rcases t.intern_cases .void with ⟨n, hn, hintern⟩ | ⟨hnew, -⟩
    · obtain rfl := h.distinct hn h.void
      rw [hintern]
      rfl
    · exact absurd h.void (hnew 0)
  | int bits =>
    have hbits : bits ≠ 0 := fun hzero => hty.1 (by rw [hzero])
    rw [ask, TypeTable.int, if_neg (by omega), Int.toNat_natCast]
  | pointer | array | function => rfl

theorem Sound.intern (h : t.Sound) (hty : t.Admits ty) : (t.intern ty).2.Sound :=
  ⟨h.toRegular.intern hty.2.1 hty.2.2, t.extends_intern ty 1 .void h.void⟩

/-- The type that was asked for has the shape of the number that was given. -/
theorem Sound.exists_denotes_intern (h : t.Sound) (hty : t.Admits ty) :
    ∃ s, ty.Denotes (t.intern ty).2 s ∧ (t.intern ty).2.Denotes (t.intern ty).1 s := by
  have hget := t.get?_intern ty
  obtain ⟨s, hs⟩ := (h.intern hty).exists_denotes hget
  obtain ⟨hid, hdenotes⟩ := id hs
  obtain rfl := Option.some.inj (hget.symm.trans hid)
  exact ⟨s, hdenotes, hs⟩

/-- Types keep their shapes when types are added. -/
theorem Regular.denotes_of_extends (h : t.Regular) (hext : t.Extends t') (hs : ty.Denotes t s) :
    ty.Denotes t' s :=
  hs.mono fun _ _ _ hc => hc.mono h.grounded hext

/-- All requests are answered, each by a number with the shape that was asked for. -/
theorem Sound.exists_askAll (h : t.Sound) {tys : List Ty} (hall : t.AdmitsAll tys) :
    ∃ ids shapes t', t.askAll tys = .ok (ids, t') ∧ t'.Sound ∧ t.Extends t' ∧
      List.Forall₂ (Ty.Denotes t') tys shapes ∧ List.Forall₂ t'.Denotes ids shapes := by
  induction tys generalizing t with
  | nil => exact ⟨[], [], t, rfl, h, .refl t, .nil, .nil⟩
  | cons ty tys ih =>
    obtain ⟨hty, hrest⟩ := hall
    have hask := h.ask_eq hty
    have hsound := h.intern hty
    obtain ⟨ids, shapes, t', haskAll, h', hext, htys, hids⟩ := ih hsound (hrest _ _ hask)
    obtain ⟨s, hs, hid⟩ := h.exists_denotes_intern hty
    exact ⟨(t.intern ty).1 :: ids, s :: shapes, t', askAll_cons_eq_ok hask haskAll, h',
      (t.extends_intern ty).trans hext, .cons (hsound.denotes_of_extends hext hs) htys,
      .cons (hid.mono hsound.grounded hext) hids⟩

/-- The first of some requests are answered as if no others followed. -/
theorem Sound.askAll_append (h : t.Sound) {tys tys' : List Ty}
    (hall : t.AdmitsAll (tys ++ tys')) :
    ∃ ids ids' t₀ t', t.askAll tys = .ok (ids, t₀) ∧
      t.askAll (tys ++ tys') = .ok (ids ++ ids', t') ∧ t₀.Sound ∧ t₀.Extends t' := by
  induction tys generalizing t with
  | nil =>
    obtain ⟨ids', -, t', haskAll, -, hext, -⟩ := h.exists_askAll hall
    exact ⟨[], ids', t, t', rfl, haskAll, h, hext⟩
  | cons ty tys ih =>
    obtain ⟨hty, hrest⟩ := hall
    have hask := h.ask_eq hty
    obtain ⟨ids, ids', t₀, t', hfirst, hboth, h₀, hext⟩ := ih (h.intern hty) (hrest _ _ hask)
    exact ⟨(t.intern ty).1 :: ids, ids', t₀, t', askAll_cons_eq_ok hask hfirst,
      askAll_cons_eq_ok hask hboth, h₀, hext⟩

/-- Types that are asked for one after the other, starting with a new table. All requests are
answered. Two of them get the same number exactly if they ask for types that are built in the same
way, all the way down, and so it is with any numbers of the table. What a number stands for, it
stands for after all later requests. The components of a type have smaller numbers than the type, so
that unfolding it comes to an end, and its size and text are those of its shape. -/
theorem askAll_interns {tys : List Ty} (h : AdmitsAll {} tys) :
    ∃ ids shapes t, askAll {} tys = .ok (ids, t) ∧
      List.Forall₂ (Ty.Denotes t) tys shapes ∧ List.Forall₂ t.Denotes ids shapes ∧
      (∀ j < tys.length, ∀ k < tys.length, ids[j]? = ids[k]? ↔ shapes[j]? = shapes[k]?) ∧
      (∀ id id' s s', t.Denotes id s → t.Denotes id' s' → (id = id' ↔ s = s')) ∧
      (∀ before after, tys = before ++ after → ∃ ids₀ t₀, askAll {} before = .ok (ids₀, t₀) ∧
        ids₀ <+: ids ∧ (∀ id s, t₀.Denotes id s → t.Denotes id s) ∧
        ∀ (ty : Ty) s, ty.Denotes t₀ s → ty.Denotes t s) ∧
      ∀ id ty, t.get? id = some ty → (∀ c ∈ ty.components, c < id) ∧ ∃ s, t.Denotes id s ∧
        t.size id = .ok (UInt64.ofNat s.size) ∧ t.text id = .ok s.text ∧
        ∀ depth, id < depth →
          t.sizeWithin depth id = t.size id ∧ t.textWithin depth id = t.text id := by
  obtain ⟨ids, shapes, t, hask, ht, -, htys, hids⟩ := sound_start.exists_askAll h
  have hexact (id id' : TypeId) (s s' : Shape) (hs : t.Denotes id s) (hs' : t.Denotes id' s') :
      id = id' ↔ s = s' := by
    constructor
    · rintro rfl
      exact ht.denotes_unique hs hs'
    · rintro rfl
      exact ht.denotes_inj hs hs'
  refine ⟨ids, shapes, t, hask, htys, hids, fun j hj k hk => ?_, hexact,
    fun before after hsplit => ?_, fun id ty hid => ⟨ht.grounded.component_lt hid, ?_⟩⟩
  · have hlength : tys.length = shapes.length := htys.length_eq
    have hlength' : ids.length = shapes.length := hids.length_eq
    have hjs : j < shapes.length := hlength ▸ hj
    have hks : k < shapes.length := hlength ▸ hk
    have hji : j < ids.length := hlength' ▸ hjs
    have hki : k < ids.length := hlength' ▸ hks
    simpa [hjs, hks, hji, hki] using hexact _ _ _ _ (hids.get hji hjs) (hids.get hki hks)
  · subst hsplit
    obtain ⟨ids₀, ids', t₀, t', hfirst, hboth, h₀, hext⟩ := sound_start.askAll_append h
    cases hask.symm.trans hboth
    exact ⟨ids₀, t₀, hfirst, List.prefix_append _ _, fun id s hs => hs.mono h₀.grounded hext,
      fun ty s hs => h₀.denotes_of_extends hext hs⟩
  · obtain ⟨s, hs⟩ := ht.exists_denotes hid
    have hle := le_size_of_get? hid
    have hsize : t.size id = .ok (UInt64.ofNat s.size) :=
      hs.sizeWithin_eq ht.grounded (Nat.lt_succ_of_le hle)
    have htext : t.text id = .ok s.text :=
      hs.textWithin_eq ht.grounded (Nat.lt_succ_of_le (Nat.le_succ_of_le hle))
    refine ⟨s, hs, hsize, htext, fun depth hd => ?_⟩
    rw [hsize, htext]
    exact ⟨hs.sizeWithin_eq ht.grounded hd, hs.textWithin_eq ht.grounded hd⟩

/-- Requests with repetitions, for types of types, and for one whose size does not fit. -/
def sampleRequests : List Ty :=
  [.int 32, .pointer 2, .int 32, .pointer TypeId.invalid, .function 2 [3, 4] true,
    .function 2 [3, 4] false, .array 2 5, .function 2 [3, 4] true, .array (2 ^ 62) 2, .void]

theorem askAll_interns_sample :
    AdmitsAll {} sampleRequests ∧ ∃ shapes t,
      askAll {} sampleRequests = .ok ([2, 3, 2, 4, 5, 6, 7, 5, 8, 1], t) ∧
      List.Forall₂ (Ty.Denotes t) sampleRequests shapes ∧ shapes[4]? = shapes[7]? ∧
      shapes[4]? ≠ shapes[5]? ∧ ∃ s, t.Denotes 8 s ∧ t.size 8 = .ok (UInt64.ofNat s.size) ∧
      t.size 8 = .ok 0 := by
  have hadmits : AdmitsAll {} sampleRequests := by decide +kernel
  obtain ⟨ids, shapes, t, hask, hshapes, -, hsame, -, -, hids⟩ := askAll_interns hadmits
  have hknown : askAll {} sampleRequests = .ok ([2, 3, 2, 4, 5, 6, 7, 5, 8, 1],
      ⟨#[.void, .int 32, .pointer 2, .pointer TypeId.invalid, .function 2 [3, 4] true,
        .function 2 [3, 4] false, .array 2 5, .array (2 ^ 62) 2]⟩) := by decide +kernel
  cases hask.symm.trans hknown
  obtain ⟨-, s, hs, hsize, -⟩ := hids 8 (.array (2 ^ 62) 2) rfl
  refine ⟨hadmits, shapes, _, hknown, hshapes, ?_, ?_, s, hs, hsize, by decide +kernel⟩
  · exact (hsame 4 (by decide) 7 (by decide)).1 rfl
  · exact mt (hsame 4 (by decide) 5 (by decide)).2 (by decide)

end TypeTable

end Codegen
