import Codegen.Proofs.Interning

/-!
# The text of a type can be read back

The text of a type is written from the inside out: a star or a list of parameters follows the text
that it applies to, so that the text of a type is the beginning of many others. It can still be read
from left to right, one character at a time. What has been read is a type in some surroundings, the
arrays and parameter lists that were opened before and not closed yet. After the text of a type that
type is the one read last and the surroundings are as they were, whatever is going to follow. A text
therefore belongs to one type, and in a table, where a type has one number, to one number.

## Main definitions

* `Shape.Frame`, `Shape.Reading`: what has been read of a text.
* `Shape.Reading.step`: reading one character.
* `Shape.read`: reading a whole text.

## Main results

* `Shape.foldlM_step_text`: after the text of a type the type has been read.
* `Shape.read_text`: reading is inverse to writing.
* `TypeTable.Regular.text_injOn`: in a regular table different numbers have different texts.
* `TypeTable.askAll_texts_distinct`: the same after any sequence of requests.
-/

namespace Codegen

namespace Shape

/-! ### Reading -/

/-- A type that was opened and not closed yet. -/
inductive Frame where
  /-- An array whose length is known as far as it was read. -/
  | array (length : Nat)
  /-- A function type with the parameters that were read. -/
  | function (result : Shape) (params : List Shape) (variadic : Bool)

/-- How far a text has been read. -/
structure Reading where
  /-- The types around the place, innermost first. -/
  around : List Frame := []
  /-- The type that ends at the place. -/
  last : Option Shape := none

namespace Reading

/-- Reads a digit: of the width of an integer, or of the length of an array. -/
def digit (d : Nat) : Reading → Option Reading
  | ⟨around, some (.int bits)⟩ => some ⟨around, some (.int (10 * bits + d))⟩
  | ⟨.array n :: around, none⟩ => some ⟨.array (10 * n + d) :: around, none⟩
  | _ => none

/-- Reads the first letter of a type. -/
def word (s : Shape) : Reading → Option Reading
  | ⟨around, none⟩ => some ⟨around, some s⟩
  | _ => none

/-- Reads a mark between or around types. -/
def mark : Char → Reading → Option Reading
  | '*', ⟨around, some s⟩ => some ⟨around, some (.pointer s)⟩
  | '[', ⟨around, none⟩ => some ⟨.array 0 :: around, none⟩
  | ']', ⟨.array n :: around, some s⟩ => some ⟨around, some (.array (.ofNat n) s)⟩
  | '(', ⟨around, some s⟩ => some ⟨.function s [] false :: around, none⟩
  | ',', ⟨.function s ps v :: around, some p⟩ =>
    some ⟨.function s (ps ++ [p]) v :: around, none⟩
  | '.', ⟨.function s ps _ :: around, none⟩ => some ⟨.function s ps true :: around, none⟩
  | ')', ⟨.function s ps v :: around, last⟩ =>
    some ⟨around, some (.function s (ps ++ last.toList) v)⟩
  | _, _ => none

/-- Reads one character. Blanks and letters inside a word change nothing. -/
def step (r : Reading) (c : Char) : Option Reading :=
  if c.isDigit then r.digit (c.toNat - '0'.toNat)
  else match c, r.last with
    | 'v', none => r.word .void
    | 'i', none => r.word (.int 0)
    | 'p', none => r.word .address
    | 'o', some .void | 'i', some .void | 'd', some .void => some r
    | 't', some .address | 'r', some .address => some r
    | 'x', none | ' ', _ => some r
    | _, _ => r.mark c

end Reading

/-- Reads the text of a type. -/
def read (text : String) : Option Shape :=
  match text.toList.foldlM Reading.step {} with
  | some ⟨[], s⟩ => s
  | _ => none

/-! ### Reading what was written -/

open Reading

/-- The digits of a number are read one after the other, wherever a number may stand. -/
theorem foldlM_step_digits (place : Nat → Reading)
    (hplace : ∀ k d, (place k).digit d = some (place (10 * k + d))) (n : Nat) :
    (Nat.toDigits 10 n).foldlM step (place 0) = some (place n) := by
  have hdigits : ∀ c ∈ Nat.toDigits 10 n, c.isDigit = true := fun c hc =>
    Nat.isDigit_of_mem_toDigits (by decide) (by decide) hc
  have hread (ds : List Char) (hds : ∀ c ∈ ds, c.isDigit = true) (k : Nat) :
      ds.foldlM step (place k) = some (place (Nat.ofDigitChars 10 ds k)) := by
    induction ds generalizing k with
    | nil => rfl
    | cons c ds ih =>
      obtain ⟨hc, hds⟩ := List.forall_mem_cons.1 hds
      simp [step, hc, hplace, ih hds, Nat.ofDigitChars_cons]
  rw [hread _ hdigits, Nat.ofDigitChars_ten_toDigits]

/-- The characters of a text, with the texts of the components left as they are. -/
theorem toList_text (s : Shape) : s.text.toList = match s with
    | .void => ['v', 'o', 'i', 'd']
    | .int bits => 'i' :: Nat.toDigits 10 bits
    | .address => ['p', 't', 'r']
    | .pointer elem => elem.text.toList ++ ['*']
    | .array length elem =>
      '[' :: (Nat.toDigits 10 length.toNat ++ ' ' :: 'x' :: ' ' :: (elem.text.toList ++ [']']))
    | .function result params variadic =>
      result.text.toList ++ ' ' :: '(' :: ((", ".intercalate
        (texts params ++ if variadic then ["..."] else [])).toList ++ [')']) := by
  have htext (s : String) : toString s = s := rfl
  cases s with
  | void | address => rfl
  | int bits => simp [text, htext]
  | pointer elem => simp [text]
  | array length elem =>
    have hlength : (toString length).toList = Nat.toDigits 10 length.toNat := by
      change (Nat.repr length.toNat).toList = _
      simp
    simp [text, htext, hlength]
  | function result params variadic => simp [text]

mutual

/-- After the text of a type the type has been read, whatever stands around it. -/
theorem foldlM_step_text (s : Shape) (around : List Frame) :
    s.text.toList.foldlM step ⟨around, none⟩ = some ⟨around, some s⟩ := by
  rw [toList_text]
  cases s with
  | void | address => rfl
  | int bits =>
    exact foldlM_step_digits (fun k => ⟨around, some (.int k)⟩) (fun _ _ => rfl) bits
  | pointer elem =>
    rw [List.foldlM_append, foldlM_step_text elem]
    rfl
  | array length elem =>
    have hlength := foldlM_step_digits (fun k => ⟨.array k :: around, none⟩) (fun _ _ => rfl)
      length.toNat
    change List.foldlM step ⟨.array 0 :: around, none⟩ (_ ++ _) = _
    rw [List.foldlM_append, hlength]
    change List.foldlM step ⟨.array length.toNat :: around, none⟩ (_ ++ _) = _
    rw [List.foldlM_append, foldlM_step_text elem]
    change some (Reading.mk around (some (.array (.ofNat length.toNat) elem))) = _
    rw [UInt64.ofNat_toNat]
  | function result params variadic =>
    rw [List.foldlM_append, foldlM_step_text result]
    exact foldlM_step_params params variadic result [] around

/-- After the texts of the parameters, with what stands between and behind them, the function type
has been read. -/
theorem foldlM_step_params (ps : List Shape) (variadic : Bool) (s : Shape) (before : List Shape)
    (around : List Frame) :
    ((", ".intercalate (texts ps ++ if variadic then ["..."] else [])).toList ++ [')']).foldlM step
      ⟨.function s before false :: around, none⟩ =
      some ⟨around, some (.function s (before ++ ps) variadic)⟩ := by
  cases ps with
  | nil => cases variadic <;> rfl
  | cons p ps =>
    rw [texts, List.cons_append]
    by_cases hend : texts ps ++ (if variadic then ["..."] else []) = []
    · obtain ⟨hps, hvariadic⟩ := List.append_eq_nil_iff.1 hend
      obtain rfl : ps = [] := by simpa [texts_eq_map] using hps
      obtain rfl : variadic = false := by simpa using hvariadic
      rw [hend, String.intercalate_singleton, List.foldlM_append, foldlM_step_text p]
      rfl
    · rw [String.intercalate_cons_of_ne_nil hend]
      simp only [String.toList_append, List.append_assoc]
      rw [List.foldlM_append, foldlM_step_text p]
      have hrest := foldlM_step_params ps variadic s (before ++ [p]) around
      rw [List.append_assoc] at hrest
      exact hrest

end

theorem read_text (s : Shape) : read s.text = some s := by
  rw [read, foldlM_step_text]

theorem text_injective : Function.Injective text := fun s s' h =>
  Option.some.inj (by rw [← read_text s, h, read_text s'])

theorem text_ne_invalid (s : Shape) : s.text ≠ "invalid" := by
  intro h
  have hread := read_text s
  rw [h] at hread
  cases hread

end Shape

/-! ### Texts in a table -/

namespace TypeTable

variable {t : TypeTable} {a b : TypeId}

/-- Every number up to the size of the table has a text: its own one if it names no type, else that
of its shape. -/
theorem Regular.exists_text (h : t.Regular) (ha : a ≤ t.entries.size) :
    ∃ x, t.text a = .ok x ∧
      (a = TypeId.invalid ∧ x = "invalid" ∨ ∃ s, t.Denotes a s ∧ x = s.text) := by
  by_cases hne : a = TypeId.invalid
  · subst hne
    exact ⟨"invalid", rfl, .inl ⟨rfl, rfl⟩⟩
  · obtain ⟨n, ty, rfl, hn, -⟩ := exists_get? hne ha
    obtain ⟨s, hs⟩ := h.exists_denotes (get?_eq_some.2 ⟨n, rfl, hn⟩)
    have htext : t.text (n + 1) = .ok s.text := 
      hs.textWithin_eq h.grounded (Nat.lt_succ_of_le (Nat.le_succ_of_le ha))
    exact ⟨s.text, htext, .inr ⟨s, hs, rfl⟩⟩

/-- Different numbers have different texts. -/
theorem Regular.text_injOn (h : t.Regular) (ha : a ≤ t.entries.size) (hb : b ≤ t.entries.size)
    (hab : t.text a = t.text b) : a = b := by
  obtain ⟨x, hx, hax⟩ := h.exists_text ha
  obtain ⟨y, hy, hby⟩ := h.exists_text hb
  obtain rfl : x = y := Except.ok.inj (hx.symm.trans (hab.trans hy))
  rcases hax with ⟨rfl, rfl⟩ | ⟨s, hs, rfl⟩
  · rcases hby with ⟨rfl, -⟩ | ⟨s', -, hs'⟩
    · rfl
    · exact absurd hs'.symm s'.text_ne_invalid
  · rcases hby with ⟨-, hs'⟩ | ⟨s', hs', hss'⟩
    · exact absurd hs' s.text_ne_invalid
    · obtain rfl := Shape.text_injective hss'
      exact h.denotes_inj hs hs'

/-- Lists of numbers with the same texts are the same. -/
theorem Regular.mapM_text_injOn (h : t.Regular) {as bs : List TypeId}
    (has : ∀ a ∈ as, a ≤ t.entries.size) (hbs : ∀ b ∈ bs, b ≤ t.entries.size) {xs : List String}
    (hax : as.mapM t.text = .ok xs) (hbx : bs.mapM t.text = .ok xs) : as = bs := by
  rw [Except.mapM_eq_ok] at hax hbx
  induction hax generalizing bs with
  | nil =>
    cases hbx
    rfl
  | cons hx _ ih =>
    cases hbx with
    | cons hy hys =>
      obtain ⟨ha, has⟩ := List.forall_mem_cons.1 has
      obtain ⟨hb, hbs⟩ := List.forall_mem_cons.1 hbs
      rw [h.text_injOn ha hb (hx.trans hy.symm), ih has hbs hys]

/-- Types that are asked for one after the other, starting with a new table. Every number of the
table has a text, also the one that names no type, and different numbers have different texts. Two
lists of numbers, such as the types of the registers or of the slots of two functions, have the same
texts only if they are the same. -/
theorem askAll_texts_distinct {tys : List Ty} (h : AdmitsAll {} tys) :
    ∃ ids t, askAll {} tys = .ok (ids, t) ∧
      (∀ a ≤ t.entries.size, ∀ b ≤ t.entries.size, ∃ x y, t.text a = .ok x ∧ t.text b = .ok y ∧
        (x = y → a = b)) ∧
      ∀ as bs : List TypeId, (∀ a ∈ as, a ≤ t.entries.size) → (∀ b ∈ bs, b ≤ t.entries.size) →
        ∃ xs ys, as.mapM t.text = .ok xs ∧ bs.mapM t.text = .ok ys ∧ (xs = ys → as = bs) := by
  obtain ⟨ids, -, t, hask, ht, -⟩ := sound_start.exists_askAll h
  have htext {a : TypeId} (ha : a ≤ t.entries.size) : ∃ x, t.text a = .ok x := by
    obtain ⟨x, hx, -⟩ := ht.exists_text ha
    exact ⟨x, hx⟩
  refine ⟨ids, t, hask, fun a ha b hb => ?_, fun as bs has hbs => ?_⟩
  · obtain ⟨x, hx⟩ := htext ha
    obtain ⟨y, hy⟩ := htext hb
    exact ⟨x, y, hx, hy, fun hxy => ht.text_injOn ha hb (by rw [hx, hy, hxy])⟩
  · obtain ⟨xs, hxs⟩ := Except.exists_mapM_eq_ok fun a ha => htext (has a ha)
    obtain ⟨ys, hys⟩ := Except.exists_mapM_eq_ok fun b hb => htext (hbs b hb)
    exact ⟨xs, ys, hxs, hys, fun hxy => ht.mapM_text_injOn has hbs hxs (hxy ▸ hys)⟩

/-- Requests for function types that return and take each other, with and without parameters. -/
def nestedRequests : List Ty :=
  [.int 32, .function 2 [] false, .function 3 [2, 3] true, .pointer 4, .array 3 5,
    .function 2 [2] false, .function 6 [2] false, .function 2 [] true, .pointer TypeId.invalid]

/-- The table after these requests. -/
def nestedTable : TypeTable :=
  ⟨#[.void, .int 32, .function 2 [] false, .function 3 [2, 3] true, .pointer 4, .array 3 5,
    .function 2 [2] false, .function 6 [2] false, .function 2 [] true, .pointer TypeId.invalid]⟩

theorem askAll_texts_distinct_nested :
    AdmitsAll {} nestedRequests ∧ ∃ ids, askAll {} nestedRequests = .ok (ids, nestedTable) ∧
      nestedTable.text 6 = .ok "[3 x i32 () (i32, i32 (), ...)*]" ∧
      nestedTable.text 8 = .ok "[3 x i32 () (i32, i32 (), ...)*] (i32)" ∧
      ∀ b ≤ 10, nestedTable.text b = .ok "[3 x i32 () (i32, i32 (), ...)*]" → b = 6 := by
  have hadmits : AdmitsAll {} nestedRequests := by decide +kernel
  have hknown : askAll {} nestedRequests = .ok ([2, 3, 4, 5, 6, 7, 8, 9, 10], nestedTable) := by
    decide +kernel
  have h6 : nestedTable.text 6 = .ok "[3 x i32 () (i32, i32 (), ...)*]" := by decide +kernel
  obtain ⟨ids, t, hask, hdistinct, -⟩ := askAll_texts_distinct hadmits
  cases hask.symm.trans hknown
  refine ⟨hadmits, _, hknown, h6, by decide +kernel, fun b hb htext => ?_⟩
  obtain ⟨x, y, hx, hy, hxy⟩ := hdistinct b hb 6 (by decide)
  exact hxy (by rw [← Except.ok.inj (htext.symm.trans hx), ← Except.ok.inj (h6.symm.trans hy)])

end TypeTable

end Codegen
