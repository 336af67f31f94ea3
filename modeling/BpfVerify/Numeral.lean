import Mathlib

/-!
# Numerals

Texts of digits in a base of at most 36, the most significant digit first: the digits that a scan
reads, their value, and the conversions `strtol` and `strtoull` of the C library in base 0.
-/
namespace Numeral

abbrev Text := List Char

/-- The value of a digit or a letter of either case. -/
def digit (c : Char) : Option ℕ :=
  if '0' ≤ c ∧ c ≤ '9' then some (c.toNat - 48)
  else if 'a' ≤ c ∧ c ≤ 'z' then some (c.toNat - 87)
  else if 'A' ≤ c ∧ c ≤ 'Z' then some (c.toNat - 55)
  else none

/-- The value of a character that is a digit of the base. -/
def digitOf (b : ℕ) (c : Char) : Option ℕ := (digit c).filter (· < b)

/-- The values of the digits of the longest numeral that a text starts with. -/
def run (b : ℕ) (t : Text) : List ℕ := (t.takeWhile fun c => (digitOf b c).isSome).filterMap (digitOf b)

/-- What follows that numeral. -/
def rest (b : ℕ) (t : Text) : Text := t.dropWhile fun c => (digitOf b c).isSome

/-- The number with these digits. -/
def value (b : ℕ) (ds : List ℕ) : ℕ := ds.foldl (fun v d => v * b + d) 0

variable {b : ℕ} {t : Text} {c : Char} {d : ℕ}

lemma digitOf_eq_some : digitOf b c = some d ↔ digit c = some d ∧ d < b := by
  rw [digitOf, Option.filter_eq_some_iff, decide_eq_true_eq]

@[simp] lemma run_nil : run b [] = [] := rfl

@[simp] lemma rest_nil : rest b [] = [] := rfl

lemma run_cons_some (h : digitOf b c = some d) (t : Text) : run b (c :: t) = d :: run b t := by
  rw [run, List.takeWhile_cons_of_pos (by rw [h]; rfl), List.filterMap_cons_some h, ← run]

lemma rest_cons_some (h : digitOf b c = some d) (t : Text) : rest b (c :: t) = rest b t := by
  rw [rest, List.dropWhile_cons_of_pos (by rw [h]; rfl), ← rest]

lemma run_cons_none (h : digitOf b c = none) (t : Text) : run b (c :: t) = [] := by
  rw [run, List.takeWhile_cons_of_neg (by rw [h]; decide), List.filterMap_nil]

lemma rest_cons_none (h : digitOf b c = none) (t : Text) : rest b (c :: t) = c :: t := by
  rw [rest, List.dropWhile_cons_of_neg (by rw [h]; decide)]

lemma length_run_add_rest (b : ℕ) (t : Text) : (run b t).length + (rest b t).length = t.length := by
  induction t with
  | nil => rfl
  | cons c t ih =>
    cases hc : digitOf b c with
    | none => rw [run_cons_none hc, rest_cons_none hc, List.length_nil, Nat.zero_add]
    | some d =>
      rw [run_cons_some hc, rest_cons_some hc, List.length_cons, List.length_cons]
      omega

@[simp] lemma value_nil : value b [] = 0 := rfl

lemma value_concat (xs : List ℕ) (d : ℕ) : value b (xs ++ [d]) = value b xs * b + d := by
  rw [value, List.foldl_append]
  rfl

/-! ## Printed numbers -/

lemma digit_digitChar (h : d < 16) : digit (Nat.digitChar d) = some d := by
  interval_cases d <;> rfl

lemma digitOf_digitChar (hb : b ≤ 16) (h : d < b) : digitOf b (Nat.digitChar d) = some d :=
  digitOf_eq_some.mpr ⟨digit_digitChar (by omega), h⟩

/-- A text of digits is read to its end, and the text after it is left. -/
lemma run_append {ds : Text} (h : ∀ c ∈ ds, (digitOf b c).isSome)
    (ht : ∀ c ∈ t.head?, digitOf b c = none) :
    run b (ds ++ t) = ds.filterMap (digitOf b) ∧ rest b (ds ++ t) = t := by
  have hstop : run b t = [] ∧ rest b t = t := by
    cases t with
    | nil => exact ⟨rfl, rfl⟩
    | cons c t => exact ⟨run_cons_none (ht c rfl) t, rest_cons_none (ht c rfl) t⟩
  induction ds with
  | nil => exact hstop
  | cons c ds ih =>
    obtain ⟨d, hd⟩ := Option.isSome_iff_exists.mp (h c (List.mem_cons_self ..))
    obtain ⟨hrun, hrest⟩ := ih fun x hx => h x (List.mem_cons_of_mem _ hx)
    rw [List.cons_append, run_cons_some hd, rest_cons_some hd, hrun, hrest,
      List.filterMap_cons_some hd]
    exact ⟨rfl, rfl⟩

lemma toDigits_digits (hb : 1 < b) (hb16 : b ≤ 16) (n : ℕ) :
    (∀ c ∈ Nat.toDigits b n, (digitOf b c).isSome) ∧
      value b ((Nat.toDigits b n).filterMap (digitOf b)) = n := by
  induction n using Nat.strong_induction_on with
  | _ n ih =>
    rw [Nat.toDigits_eq_if hb]
    split_ifs with hlt
    · have hd := digitOf_digitChar hb16 hlt
      refine ⟨List.forall_mem_singleton.mpr (by rw [hd]; rfl), ?_⟩
      rw [List.filterMap_cons_some hd, List.filterMap_nil, value, List.foldl_cons, List.foldl_nil]
      omega
    · obtain ⟨hall, hvalue⟩ := ih (n / b) (Nat.div_lt_self (by omega) hb)
      have hd := digitOf_digitChar hb16 (Nat.mod_lt n (by omega))
      constructor
      · intro c hc
        rcases List.mem_append.mp hc with hc | hc
        · exact hall c hc
        · rw [List.mem_singleton.mp hc, hd]
          rfl
      · rw [List.filterMap_append, List.filterMap_cons_some hd, List.filterMap_nil, value_concat,
          hvalue]
        exact Nat.div_add_mod' n b

/-- A printed number is read back. -/
theorem run_toDigits (hb : 1 < b) (hb16 : b ≤ 16) (n : ℕ) (ht : ∀ c ∈ t.head?, digitOf b c = none) :
    value b (run b (Nat.toDigits b n ++ t)) = n ∧ rest b (Nat.toDigits b n ++ t) = t := by
  obtain ⟨hall, hvalue⟩ := toDigits_digits hb hb16 n
  obtain ⟨hrun, hrest⟩ := run_append hall ht
  rw [hrun, hvalue]
  exact ⟨rfl, hrest⟩

/-- `isspace` in the C locale. -/
def isspace (c : Char) : Bool := c ∈ [' ', '\t', '\n', '\x0b', '\x0c', '\r']

/-- Whether there is a minus sign, and the text after an optional sign. -/
def sign : Text → Bool × Text
  | '-' :: t => (true, t)
  | '+' :: t => (false, t)
  | t => (false, t)

/-- The base of a numeral under base 0, and the numeral without a prefix `0x`. -/
def detect : Text → ℕ × Text
  | '0' :: x :: c :: t =>
    if (x = 'x' ∨ x = 'X') ∧ (digitOf 16 c).isSome then (16, c :: t) else (8, '0' :: x :: c :: t)
  | '0' :: t => (8, '0' :: t)
  | t => (10, t)

/-- The sign and the absolute value that a conversion with base 0 reads. -/
def convert (t : Text) : Bool × ℕ :=
  let signed := sign (t.dropWhile isspace)
  let numeral := detect signed.2
  (signed.1, value numeral.1 (run numeral.1 numeral.2))

/-- `strtol(s, NULL, 0)`, which stops at the ends of the range. -/
def strtol (t : Text) : ℤ :=
  let v : ℤ := if (convert t).1 then -(convert t).2 else (convert t).2
  max (-2 ^ 63) (min v (2 ^ 63 - 1))

/-- `strtoull(s, NULL, 0)`; the negation is that of the unsigned type. -/
def strtoull (t : Text) : UInt64 :=
  if 2 ^ 64 ≤ (convert t).2 then 0xffffffffffffffff
  else if (convert t).1 then -UInt64.ofNat (convert t).2 else UInt64.ofNat (convert t).2

lemma isSome_digit (h : (digitOf b c).isSome) : (digit c).isSome := by
  obtain ⟨d, hd⟩ := Option.isSome_iff_exists.mp h
  rw [(digitOf_eq_some.mp hd).1]
  rfl

lemma ne_sign (h : (digitOf b c).isSome) : c ≠ '-' ∧ c ≠ '+' := by
  constructor
  · rintro rfl
    exact absurd (isSome_digit h) (by decide)
  · rintro rfl
    exact absurd (isSome_digit h) (by decide)

lemma toDigits_cons (hb : 1 < b) (hb16 : b ≤ 16) (n : ℕ) :
    ∃ c ds, Nat.toDigits b n = c :: ds ∧ (digitOf b c).isSome := by
  obtain ⟨c, ds, heq⟩ := List.exists_cons_of_ne_nil (@Nat.toDigits_ne_nil n b)
  exact ⟨c, ds, heq, (toDigits_digits hb hb16 n).1 c (by rw [heq]; exact List.mem_cons_self ..)⟩

end Numeral
