import BpfVerify.Numeral

/-!
# Number scanners

The stand-ins for two scanners of the kernel: `_parse_integer` in `targets/bitmap_parselist` and
`simple_strtoull` in `targets/cmdline`. A string is the bytes in front of its terminator.
-/
namespace BpfVerify.NumberScan
open Numeral

abbrev Byte := BitVec 8

/-- `'\0'` behind the string. -/
def byteAt (s : List Byte) (i : ℕ) : Byte := s.getD i 0

/-! ## `_parse_integer` -/

/-- The digit, or `none` where the scanner breaks off. -/
def letterDigit (c : Byte) : Option (BitVec 32) :=
  let low := c ||| 0x20
  if 0x30 ≤ c ∧ c ≤ 0x39 then some (c.setWidth 32 - 0x30)
  else if 0x61 ≤ low ∧ low ≤ 0x7a then some (low.setWidth 32 - 0x61 + 10)
  else none

def parseLoop (base : BitVec 32) : List Byte → BitVec 64 → BitVec 32 → BitVec 64 × BitVec 32
  | [], val, count => (val, count)
  | c :: s, val, count =>
    match letterDigit c with
    | none => (val, count)
    | some d =>
      if d ≥ base then (val, count)
      else parseLoop base s (val * base.setWidth 64 + d.setWidth 64) (count + 1)

/-- What is stored in `*res`, and the number of characters. -/
def parseInteger (s : List Byte) (base : BitVec 32) : BitVec 64 × BitVec 32 := parseLoop base s 0 0

/-! ## `simple_strtoull` -/

def cmdlineDigit (c : Byte) : ℤ :=
  if 0x30 ≤ c ∧ c ≤ 0x39 then c.toNat - 0x30
  else if 0x61 ≤ c ∧ c ≤ 0x66 then c.toNat - 0x61 + 10
  else if 0x41 ≤ c ∧ c ≤ 0x46 then c.toNat - 0x41 + 10
  else -1

/-- The base, and how far the scanner has moved in front of the digits. -/
def detectBase (s : List Byte) (base : BitVec 32) : BitVec 32 × ℕ :=
  if base ≠ 0 then (base, 0)
  else if byteAt s 0 ≠ 0x30 then (10, 0)
  else if byteAt s 1 ≠ 0x78 ∧ byteAt s 1 ≠ 0x58 then (8, 1)
  else (16, 2)

/-- The loop with the number of rounds that are left. -/
def strtoullLoop (s : List Byte) (base : BitVec 32) : ℕ → ℕ → BitVec 64 → BitVec 64 × ℕ
  | 0, p, result => (result, p)
  | left + 1, p, result =>
    let digit := cmdlineDigit (byteAt s p)
    if digit < 0 ∨ BitVec.ofInt 32 digit ≥ base then (result, p)
    else strtoullLoop s base left (p + 1) (result * base.setWidth 64 + BitVec.ofInt 64 digit)

/-- The result, and how far `*endp` is from the start. -/
def simpleStrtoull (s : List Byte) (base : BitVec 32) : BitVec 64 × ℕ :=
  strtoullLoop s (detectBase s base).1 32 (detectBase s base).2 0

/-- The negation of a `long`. That of `LONG_MIN` is a signed overflow in C; here it wraps around to
`LONG_MIN`, as in the two's complement of the target. -/
def simpleStrtol (s : List Byte) (base : BitVec 32) : BitVec 64 × ℕ :=
  if byteAt s 0 = 0x2d then
    let scanned := simpleStrtoull (s.drop 1) base
    (-scanned.1, 1 + scanned.2)
  else simpleStrtoull s base

/-! ## The digits that are read -/

def chr (c : Byte) : Char := Char.ofNat c.toNat

/-- The digits of a base that a string starts with. -/
def digits (b : ℕ) (s : List Byte) : List ℕ := run b (s.map chr)

lemma letterDigit_eq : ∀ c, letterDigit c = (digit (chr c)).map (BitVec.ofNat 32) := by
  decide +kernel

lemma cmdlineDigit_eq : ∀ c,
    cmdlineDigit c = (((digit (chr c)).filter (· < 16)).map Int.ofNat).getD (-1) := by
  decide +kernel

lemma digit_lt : ∀ c, ∀ d ∈ digit (chr c), d < 36 := by
  decide +kernel

lemma digits_cons_none {b : ℕ} {c : Byte} (h : digitOf b (chr c) = none) (s : List Byte) :
    digits b (c :: s) = [] := run_cons_none h _

lemma digits_cons_some {b d : ℕ} {c : Byte} (h : digitOf b (chr c) = some d) (s : List Byte) :
    digits b (c :: s) = d :: digits b s := run_cons_some h _

lemma length_digits_le (b : ℕ) (s : List Byte) : (digits b s).length ≤ s.length := by
  have h := length_run_add_rest b (s.map chr)
  rw [List.length_map] at h
  rw [digits]
  omega

lemma push_digit (v d : ℕ) (base : BitVec 32) :
    BitVec.ofNat 64 v * base.setWidth 64 + BitVec.ofNat 64 d =
      BitVec.ofNat 64 (v * base.toNat + d) := by
  have hbase : base.setWidth 64 = BitVec.ofNat 64 base.toNat := by
    rw [← BitVec.toNat_inj, BitVec.toNat_setWidth, BitVec.toNat_ofNat]
  rw [hbase, BitVec.ofNat_add, BitVec.ofNat_mul]

lemma digit_ge_iff {d : ℕ} (hd : d < 36) (base : BitVec 32) :
    BitVec.ofNat 32 d ≥ base ↔ ¬ d < base.toNat := by
  rw [ge_iff_le, BitVec.le_def, BitVec.toNat_ofNat, Nat.mod_eq_of_lt (by omega), not_lt]

/-- `_parse_integer` from a value and a count on. -/
lemma parseLoop_eq (base : BitVec 32) (s : List Byte) (v n : ℕ) :
    parseLoop base s (BitVec.ofNat 64 v) (BitVec.ofNat 32 n) =
      (BitVec.ofNat 64 ((digits base.toNat s).foldl (fun v d => v * base.toNat + d) v),
        BitVec.ofNat 32 (n + (digits base.toNat s).length)) := by
  induction s generalizing v n with
  | nil => rfl
  | cons c s ih =>
    rw [parseLoop, letterDigit_eq]
    cases hc : digit (chr c) with
    | none => rw [digits_cons_none (by rw [digitOf, hc]; rfl)]; rfl
    | some d =>
      have hd : d < 36 := digit_lt c d hc
      dsimp only [Option.map_some]
      by_cases hbase : d < base.toNat
      · have hset : (BitVec.ofNat 32 d).setWidth 64 = BitVec.ofNat 64 d := by
          rw [← BitVec.toNat_inj, BitVec.toNat_setWidth, BitVec.toNat_ofNat, BitVec.toNat_ofNat]
          omega
        rw [if_neg (by rw [digit_ge_iff hd]; omega), hset, push_digit,
          show BitVec.ofNat 32 n + 1 = BitVec.ofNat 32 (n + 1) from (BitVec.ofNat_add ..).symm, ih,
          digits_cons_some (digitOf_eq_some.2 ⟨hc, hbase⟩), List.foldl_cons, List.length_cons]
        congr 2
        omega
      · rw [if_pos ((digit_ge_iff hd base).2 hbase),
          digits_cons_none (by simpa [digitOf, hc] using hbase)]
        rfl

/-- The `unsigned long long` of the digits, and their number as an `unsigned int`. -/
theorem parseInteger_exact (s : List Byte) (base : BitVec 32) :
    parseInteger s base = (BitVec.ofNat 64 (value base.toNat (digits base.toNat s)),
      BitVec.ofNat 32 (digits base.toNat s).length) := by
  have h := parseLoop_eq base s 0 0
  rw [Nat.zero_add] at h
  exact h

/-- The scanner of `cmdline` knows no digit above `f`, whatever the base. -/
lemma cmdlineDigit_none {base : BitVec 32} {c : Byte}
    (h : digitOf (min base.toNat 16) (chr c) = none) :
    cmdlineDigit c < 0 ∨ BitVec.ofInt 32 (cmdlineDigit c) ≥ base := by
  rw [cmdlineDigit_eq]
  cases hc : digit (chr c) with
  | none => exact .inl (by decide)
  | some d =>
    by_cases hd : d < 16
    · have hbase : ¬ d < base.toNat := by
        intro hlt
        simp [digitOf, hc, hlt] at h
        omega
      refine .inr ?_
      rw [Option.filter_some, if_pos (by simpa using hd), Option.map_some, Option.getD_some]
      exact (digit_ge_iff (by omega) base).2 hbase
    · refine .inl ?_
      rw [Option.filter_some, if_neg (by simpa using hd)]
      decide

lemma cmdlineDigit_some {base : BitVec 32} {c : Byte} {d : ℕ}
    (h : digitOf (min base.toNat 16) (chr c) = some d) :
    cmdlineDigit c = d ∧ ¬ (cmdlineDigit c < 0 ∨ BitVec.ofInt 32 (cmdlineDigit c) ≥ base) := by
  obtain ⟨hdigit, hlt⟩ := digitOf_eq_some.1 h
  obtain ⟨hbase, h16⟩ := lt_min_iff.1 hlt
  have hd : cmdlineDigit c = d := by
    rw [cmdlineDigit_eq, hdigit, Option.filter_some, if_pos (by simpa using h16)]
    rfl
  rw [hd]
  refine ⟨rfl, not_or.2 ⟨by omega, ?_⟩⟩
  exact fun hge => (digit_ge_iff (by omega) base).1 hge hbase

lemma byteAt_of_drop {s t : List Byte} {p : ℕ} {c : Byte} (h : s.drop p = c :: t) :
    byteAt s p = c ∧ s.drop (p + 1) = t := by
  constructor
  · have hget : s[p]? = some c := by rw [← List.head?_drop, h, List.head?_cons]
    rw [byteAt, List.getD_eq_getElem?_getD, hget, Option.getD_some]
  · rw [← List.tail_drop, h, List.tail_cons]

lemma strtoullLoop_eq (s : List Byte) (base : BitVec 32) (left p v : ℕ) :
    strtoullLoop s base left p (BitVec.ofNat 64 v) =
      (BitVec.ofNat 64 (((digits (min base.toNat 16) (s.drop p)).take left).foldl
          (fun v d => v * base.toNat + d) v),
        p + min left (digits (min base.toNat 16) (s.drop p)).length) := by
  induction left generalizing p v with
  | zero => simp [strtoullLoop]
  | succ left ih =>
    rw [strtoullLoop]
    cases hdrop : s.drop p with
    | nil =>
      -- the terminator
      have hend : byteAt s p = 0 := by
        rw [byteAt, List.getD_eq_default _ _ (List.drop_eq_nil_iff.1 hdrop)]
      rw [hend, if_pos (.inl (by decide))]
      simp [digits]
    | cons c t =>
      obtain ⟨hbyte, htail⟩ := byteAt_of_drop hdrop
      rw [hbyte]
      cases hd : digitOf (min base.toNat 16) (chr c) with
      | none => simp [if_pos (cmdlineDigit_none hd), digits_cons_none hd]
      | some d =>
        obtain ⟨hdigit, hgo⟩ := cmdlineDigit_some hd
        have hpush : BitVec.ofInt 64 (d : ℤ) = BitVec.ofNat 64 d := BitVec.ofInt_natCast ..
        rw [if_neg hgo, hdigit, hpush, push_digit, ih, htail, digits_cons_some hd,
          List.take_succ_cons, List.foldl_cons, List.length_cons]
        congr 1
        omega

/-- The first 32 digits, none of them above `f`, behind the prefix that base 0 allows. -/
theorem simpleStrtoull_exact (s : List Byte) (base : BitVec 32) :
    simpleStrtoull s base =
      let b := (detectBase s base).1
      let skipped := (detectBase s base).2
      let ds := digits (min b.toNat 16) (s.drop skipped)
      (BitVec.ofNat 64 (value b.toNat (ds.take 32)), skipped + min 32 ds.length) :=
  strtoullLoop_eq s _ 32 _ 0

/-- The two scanners of a base up to 16 read the same number and stop at the same character exactly
when there are at most 32 digits. -/
theorem scanners_agree_iff (s : List Byte) (hs : s.length < 2 ^ 32) (base : BitVec 32)
    (hzero : base ≠ 0) (h16 : base ≤ 16) :
    simpleStrtoull s base = ((parseInteger s base).1, (parseInteger s base).2.toNat) ↔
      (digits base.toNat s).length ≤ 32 := by
  have hmin : min base.toNat 16 = base.toNat := min_eq_left h16
  have hlen := length_digits_le base.toNat s
  rw [simpleStrtoull_exact, parseInteger_exact, detectBase, if_pos hzero]
  dsimp only
  rw [List.drop_zero, hmin, BitVec.toNat_ofNat, Nat.mod_eq_of_lt (by omega), Nat.zero_add]
  constructor
  · intro h
    have hend := (Prod.ext_iff.1 h).2
    dsimp only at hend
    omega
  · intro h
    rw [List.take_of_length_le h, min_eq_right h]

theorem scanners_agree_iff_two_digits :
    simpleStrtoull [0x31, 0x37] 8 =
      ((parseInteger [0x31, 0x37] 8).1, (parseInteger [0x31, 0x37] 8).2.toNat) ↔
        (digits (8 : BitVec 32).toNat [0x31, 0x37]).length ≤ 32 :=
  scanners_agree_iff [0x31, 0x37] (by decide) 8 (by decide) (by decide)

/-! ## Printed numbers -/

/-- The digits of a number. -/
def text (b n : ℕ) : List Byte := (Nat.toDigits b n).map fun c => BitVec.ofNat 8 c.toNat

/-- A `long`, with its sign. -/
def printed (b : ℕ) (n : BitVec 64) : List Byte :=
  if n.msb then 0x2d :: text b (-n).toNat else text b n.toNat

lemma toNat_lt_of_digit {c : Char} (h : (digit c).isSome) : c.toNat < 256 := by
  rw [digit] at h
  split_ifs at h with h1 h2 h3
  · exact lt_of_le_of_lt (show c.toNat ≤ '9'.toNat from h1.2) (by decide)
  · exact lt_of_le_of_lt (show c.toNat ≤ 'z'.toNat from h2.2) (by decide)
  · exact lt_of_le_of_lt (show c.toNat ≤ 'Z'.toNat from h3.2) (by decide)
  · contradiction

lemma chr_of_digit {c : Char} (h : (digit c).isSome) : chr (BitVec.ofNat 8 c.toNat) = c := by
  rw [chr, BitVec.toNat_ofNat, Nat.mod_eq_of_lt (toNat_lt_of_digit h), Char.ofNat_toNat]

lemma map_chr_text {b : ℕ} (hb : 1 < b) (h16 : b ≤ 16) (n : ℕ) :
    (text b n).map chr = Nat.toDigits b n := by
  have hchr : ∀ c ∈ Nat.toDigits b n, (chr ∘ fun c : Char => BitVec.ofNat 8 c.toNat) c = id c :=
    fun c hc => chr_of_digit (isSome_digit ((toDigits_digits hb h16 n).1 c hc))
  rw [text, List.map_map, List.map_congr_left hchr, List.map_id]

/-- The digits that are read of a printed number are all of them, and its value is theirs. -/
lemma digits_text {b : ℕ} (hb : 1 < b) (h16 : b ≤ 16) (n : ℕ) {t : List Byte}
    (ht : ∀ c ∈ t.head?, digitOf b (chr c) = none) :
    value b (digits b (text b n ++ t)) = n ∧
      (digits b (text b n ++ t)).length = (text b n).length := by
  have hstop : ∀ c ∈ (t.map chr).head?, digitOf b c = none := by
    rw [List.head?_map]
    simpa using ht
  have hmap : (text b n ++ t).map chr = Nat.toDigits b n ++ t.map chr := by
    rw [List.map_append, map_chr_text hb h16]
  obtain ⟨hvalue, hrest⟩ := run_toDigits hb h16 n hstop
  have hlen := length_run_add_rest b (Nat.toDigits b n ++ t.map chr)
  rw [hrest, List.length_append] at hlen
  rw [digits, hmap, hvalue, text, List.length_map]
  exact ⟨rfl, by omega⟩

lemma byteAt_text {b : ℕ} (hb : 1 < b) (h16 : b ≤ 16) (n : ℕ) (t : List Byte) :
    byteAt (text b n ++ t) 0 ≠ 0x2d := by
  obtain ⟨c, ds, hcons, hc⟩ := toDigits_cons hb h16 n
  rw [text, hcons, List.map_cons, List.cons_append, byteAt, List.getD_cons_zero]
  intro hminus
  have hchr := chr_of_digit (isSome_digit hc)
  rw [hminus] at hchr
  exact (ne_sign hc).1 hchr.symm

lemma simpleStrtoull_text {base : BitVec 32} (h4 : 4 ≤ base.toNat) (h16 : base.toNat ≤ 16) {n : ℕ}
    (hn : n < 2 ^ 64) {t : List Byte} (ht : ∀ c ∈ t.head?, digitOf base.toNat (chr c) = none) :
    simpleStrtoull (text base.toNat n ++ t) base =
      (BitVec.ofNat 64 n, (text base.toNat n).length) := by
  obtain ⟨hvalue, hlen⟩ := digits_text (by omega) h16 n ht
  have hzero : base ≠ 0 := by
    rintro rfl
    exact absurd h4 (by decide)
  have hshort : (text base.toNat n).length ≤ 32 := by
    rw [text, List.length_map]
    refine Nat.toDigits_length _ _ _ (by decide) (lt_of_lt_of_le hn ?_)
    calc 2 ^ 64 = 4 ^ 32 := by norm_num
      _ ≤ base.toNat ^ 32 := Nat.pow_le_pow_left h4 32
  rw [simpleStrtoull_exact, detectBase, if_pos hzero]
  dsimp only
  rw [List.drop_zero, min_eq_left h16, List.take_of_length_le (by omega), hvalue, hlen,
    Nat.zero_add, min_eq_right hshort]

/-- Every `long` is read back from what was printed of it, and the scan stops behind it. -/
theorem simpleStrtol_printed (base : BitVec 32) (h4 : 4 ≤ base.toNat) (h16 : base.toNat ≤ 16)
    (n : BitVec 64) (t : List Byte) (ht : ∀ c ∈ t.head?, digitOf base.toNat (chr c) = none) :
    simpleStrtol (printed base.toNat n ++ t) base = (n, (printed base.toNat n).length) := by
  rw [printed]
  split_ifs with hneg
  · have hminus : byteAt (0x2d :: (text base.toNat (-n).toNat ++ t)) 0 = 0x2d := rfl
    rw [List.cons_append, simpleStrtol, if_pos hminus, List.drop_one, List.tail_cons,
      simpleStrtoull_text h4 h16 (BitVec.isLt _) ht, BitVec.ofNat_toNat, BitVec.setWidth_eq]
    dsimp only
    rw [BitVec.neg_neg, List.length_cons, Nat.add_comm]
  · rw [simpleStrtol, if_neg (byteAt_text (by omega) h16 _ t), simpleStrtoull_text h4 h16 n.isLt ht,
      BitVec.ofNat_toNat, BitVec.setWidth_eq]

theorem simpleStrtol_printed_negative :
    simpleStrtol (printed 10 (-42) ++ [0x2c]) 10 = (-42, (printed 10 (-42)).length) :=
  simpleStrtol_printed 10 (by decide) (by decide) (-42) [0x2c] (by
    intro c hc
    obtain rfl := Option.mem_some_iff.1 hc
    decide)

end BpfVerify.NumberScan
