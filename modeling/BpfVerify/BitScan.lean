import BpfVerify.LpmMatch

/-!
# Bit scans

`__ffs`, `ffz`, `__fls`, `ffs`, `fls` and `fls64` of the `asm/bitops.h` shim, with
`BITS_PER_LONG = 64`. They find the bits that they name, and `fls` and `fls64` of
`shims/kernel/bpf/lpm_trie.c` return the same values.
-/
namespace BpfVerify.BitScan

/-! ## The scans -/

/-- One halving of `__ffs`: with no bit of `mask` set, the word moves down by `k`. -/
def ffsStep (mask : BitVec 64) (k : ℕ) (v : BitVec 64 × ℕ) : BitVec 64 × ℕ :=
  if v.1 &&& mask = 0 then (v.1 >>> k, v.2 + k) else v

/-- `__ffs`. -/
def ffsWord (word : BitVec 64) : ℕ :=
  let v := (word, 0)
  let v := ffsStep 0xffffffff 32 v
  let v := ffsStep 0xffff 16 v
  let v := ffsStep 0xff 8 v
  let v := ffsStep 0xf 4 v
  let v := ffsStep 0x3 2 v
  if v.1 &&& 0x1 = 0 then v.2 + 1 else v.2

def ffz (word : BitVec 64) : ℕ := ffsWord (~~~word)

def bitsPerLong : ℕ := 64

/-- `~0UL << n`. -/
def onesFrom (n : ℕ) : BitVec 64 := ~~~(0 : BitVec 64) <<< n

/-- One halving of `__fls`: with none of the upper `k` bits set, the word moves up by `k`. -/
def flsStep (k : ℕ) (v : BitVec 64 × ℕ) : BitVec 64 × ℕ :=
  if v.1 &&& onesFrom (bitsPerLong - k) = 0 then (v.1 <<< k, v.2 - k) else v

/-- `__fls`. -/
def flsWord (word : BitVec 64) : ℕ :=
  let v := (word, bitsPerLong - 1)
  let v := flsStep 32 v
  let v := flsStep 16 v
  let v := flsStep 8 v
  let v := flsStep 4 v
  let v := flsStep 2 v
  if v.1 &&& onesFrom (bitsPerLong - 1) = 0 then v.2 - 1 else v.2

/-- The argument goes through `unsigned int` to `unsigned long`. -/
def ffs (x : Int32) : ℕ := if x = 0 then 0 else ffsWord (x.toBitVec.setWidth 64) + 1

def fls (x : BitVec 32) : ℕ := if x = 0 then 0 else flsWord (x.setWidth 64) + 1

def fls64 (x : BitVec 64) : ℕ := if x = 0 then 0 else flsWord x + 1

/-! ## The bit they look for -/

variable {w : ℕ}

def Lowest (x : BitVec w) (i : ℕ) : Prop := x.getLsbD i = true ∧ ∀ j < i, x.getLsbD j = false

def Highest (x : BitVec w) (i : ℕ) : Prop := x.getLsbD i = true ∧ ∀ j > i, x.getLsbD j = false

lemma and_eq_zero_iff (x m : BitVec w) :
    x &&& m = 0 ↔ ∀ j, m.getLsbD j = true → x.getLsbD j = false := by
  constructor
  · intro hz j hj
    have hbit : (x &&& m).getLsbD j = (0#w).getLsbD j := by rw [hz]; rfl
    rwa [BitVec.getLsbD_and, hj, Bool.and_true, BitVec.getLsbD_zero] at hbit
  · intro h
    apply BitVec.eq_of_getLsbD_eq
    intro j hj
    show (x &&& m).getLsbD j = (0#w).getLsbD j
    rw [BitVec.getLsbD_and, BitVec.getLsbD_zero]
    cases hm : m.getLsbD j with
    | false => exact Bool.and_false _
    | true => rw [h j hm, Bool.false_and]

lemma exists_getLsbD {x : BitVec w} (hx : x ≠ 0) : ∃ i, x.getLsbD i = true := by
  by_contra hnone
  apply hx
  apply BitVec.eq_of_getLsbD_eq
  intro i hi
  show x.getLsbD i = (0#w).getLsbD i
  rw [BitVec.getLsbD_zero]
  exact Bool.eq_false_iff.mpr fun h => hnone ⟨i, h⟩

lemma exists_lowest {x : BitVec w} (hx : x ≠ 0) : ∃ i < w, Lowest x i := by
  have hset := exists_getLsbD hx
  refine ⟨Nat.find hset, BitVec.lt_of_getLsbD (Nat.find_spec hset), Nat.find_spec hset, ?_⟩
  exact fun j hj => Bool.eq_false_iff.mpr (Nat.find_min hset hj)

lemma exists_highest {x : BitVec w} (hx : x ≠ 0) : ∃ i < w, Highest x i := by
  have hbound : ∀ j, x.getLsbD j = true → j ≤ w := fun j hj => (BitVec.lt_of_getLsbD hj).le
  obtain ⟨i, hi⟩ := exists_getLsbD hx
  have hspec := Nat.findGreatest_spec (P := fun j => x.getLsbD j = true) (hbound i hi) hi
  refine ⟨_, BitVec.lt_of_getLsbD hspec, hspec, fun j hj => Bool.eq_false_iff.mpr fun h => ?_⟩
  exact Nat.findGreatest_is_greatest hj (hbound j h) h

lemma Highest.size {x : BitVec w} {i : ℕ} (h : Highest x i) : Nat.size x.toNat = i + 1 := by
  apply le_antisymm
  · apply Nat.size_le.mpr
    apply Nat.lt_pow_two_of_testBit
    exact fun j hj => h.2 j hj
  · exact Nat.lt_size.mpr (Nat.ge_two_pow_of_testBit h.1)

/-! ## Halving -/

/-- `__ffs` on its way: the lowest bit is in the low part of the word, `v.2` below where it was. -/
def FfsAt (x : BitVec 64) (width : ℕ) (v : BitVec 64 × ℕ) : Prop :=
  ∃ i < width, Lowest v.1 i ∧ Lowest x (v.2 + i)

lemma FfsAt.step {x : BitVec 64} {v : BitVec 64 × ℕ} (mask : BitVec 64) (k : ℕ)
    (h : FfsAt x (2 * k) v) (hmask : ∀ j < 64, mask.getLsbD j = decide (j < k)) :
    FfsAt x k (ffsStep mask k v) := by
  obtain ⟨i, hi, hlow, hx⟩ := h
  have hlt : i < 64 := BitVec.lt_of_getLsbD hlow.1
  by_cases hz : v.1 &&& mask = 0
  · have hki : k ≤ i := by
      by_contra hik
      have hbit := (and_eq_zero_iff v.1 mask).mp hz i (by rw [hmask i hlt]; simpa using hik)
      exact absurd hlow.1 (Bool.eq_false_iff.mp hbit)
    rw [ffsStep, if_pos hz]
    refine ⟨i - k, by omega, ⟨?_, ?_⟩, ?_⟩
    · rw [BitVec.getLsbD_ushiftRight, Nat.add_sub_cancel' hki]
      exact hlow.1
    · intro j hj
      rw [BitVec.getLsbD_ushiftRight]
      exact hlow.2 (k + j) (by omega)
    · rwa [Nat.add_assoc, Nat.add_sub_cancel' hki]
  · rw [ffsStep, if_neg hz]
    refine ⟨i, ?_, hlow, hx⟩
    by_contra hik
    apply hz
    apply (and_eq_zero_iff v.1 mask).mpr
    intro j hj
    rw [hmask j (BitVec.lt_of_getLsbD hj)] at hj
    have hjk := of_decide_eq_true hj
    exact hlow.2 j (by omega)

theorem lowest_ffsWord {word : BitVec 64} (h : word ≠ 0) : Lowest word (ffsWord word) := by
  obtain ⟨i, hi, hlow⟩ := exists_lowest h
  have h₀ : FfsAt word 64 (word, 0) := ⟨i, hi, hlow, by rwa [Nat.zero_add]⟩
  have h₁ := h₀.step 0xffffffff 32 (by decide)
  have h₂ := h₁.step 0xffff 16 (by decide)
  have h₃ := h₂.step 0xff 8 (by decide)
  have h₄ := h₃.step 0xf 4 (by decide)
  have h₅ := h₄.step 0x3 2 (by decide)
  -- the last halving leaves one bit
  obtain ⟨j, hj, -, hword⟩ := h₅.step 0x1 1 (by decide)
  rw [Nat.lt_one_iff.mp hj, Nat.add_zero, ffsStep, apply_ite Prod.snd] at hword
  exact hword

lemma getLsbD_onesFrom (n j : ℕ) : (onesFrom n).getLsbD j = decide (n ≤ j ∧ j < 64) := by
  show (BitVec.allOnes 64 <<< n).getLsbD j = _
  rw [BitVec.getLsbD_shiftLeft, BitVec.getLsbD_allOnes]
  by_cases hn : n ≤ j
  · by_cases hj : j < 64
    · simp [hn, hj, show j - n < 64 by omega]
    · simp [hj]
  · simp [hn, show j < n by omega]

/-- `__fls` on its way: the highest bit is in the upper part of the word. -/
def FlsAt (x : BitVec 64) (width : ℕ) (v : BitVec 64 × ℕ) : Prop :=
  ∃ i, 64 - width ≤ i ∧ i < 64 ∧ Highest v.1 i ∧ ∃ n, Highest x n ∧ v.2 + i = n + 63

lemma FlsAt.step {x : BitVec 64} {v : BitVec 64 × ℕ} (k : ℕ) (h : FlsAt x (2 * k) v)
    (hk : 2 * k ≤ 64) : FlsAt x k (flsStep k v) := by
  obtain ⟨i, hi, hlt, hhigh, n, hx, hn⟩ := h
  have hbpl : bitsPerLong = 64 := rfl
  by_cases hz : v.1 &&& onesFrom (bitsPerLong - k) = 0
  · have hik : i < 64 - k := by
      by_contra hki
      have hbit := (and_eq_zero_iff _ _).mp hz i (by rw [getLsbD_onesFrom]; simp; omega)
      exact absurd hhigh.1 (Bool.eq_false_iff.mp hbit)
    rw [flsStep, if_pos hz]
    refine ⟨i + k, by omega, by omega, ⟨?_, ?_⟩, n, hx, by dsimp only; omega⟩
    · rw [BitVec.getLsbD_shiftLeft, Nat.add_sub_cancel, hhigh.1]
      simp
      omega
    · intro j hj
      rw [BitVec.getLsbD_shiftLeft, hhigh.2 (j - k) (by omega), Bool.and_false]
  · rw [flsStep, if_neg hz]
    refine ⟨i, ?_, hlt, hhigh, n, hx, hn⟩
    by_contra hik
    apply hz
    apply (and_eq_zero_iff _ _).mpr
    intro j hj
    rw [getLsbD_onesFrom] at hj
    have hjk := of_decide_eq_true hj
    exact hhigh.2 j (by omega)

theorem highest_flsWord {word : BitVec 64} (h : word ≠ 0) : Highest word (flsWord word) := by
  obtain ⟨i, hi, hhigh⟩ := exists_highest h
  have h₀ : FlsAt word 64 (word, bitsPerLong - 1) :=
    ⟨i, by omega, hi, hhigh, i, hhigh, by dsimp only [bitsPerLong]; omega⟩
  have h₁ := h₀.step 32 (by omega)
  have h₂ := h₁.step 16 (by omega)
  have h₃ := h₂.step 8 (by omega)
  have h₄ := h₃.step 4 (by omega)
  have h₅ := h₄.step 2 (by omega)
  obtain ⟨j, hj, hlt, -, n, hword, hn⟩ := h₅.step 1 (by omega)
  rw [show j = 63 by omega, Nat.add_right_cancel_iff] at hn
  rw [← hn, flsStep, apply_ite Prod.snd] at hword
  exact hword

/-! ## The scans that count from one -/

lemma toNat_setWidth_long (x : BitVec 32) : (x.setWidth 64).toNat = x.toNat := by
  rw [BitVec.toNat_setWidth, Nat.mod_eq_of_lt (by have := x.isLt; omega)]

lemma setWidth_long_ne_zero {x : BitVec 32} (h : x ≠ 0) : x.setWidth 64 ≠ 0 := by
  intro hz
  have hnat := congrArg BitVec.toNat hz
  rw [toNat_setWidth_long] at hnat
  exact h (BitVec.eq_of_toNat_eq hnat)

lemma getLsbD_setWidth_long (x : BitVec 32) (j : ℕ) : (x.setWidth 64).getLsbD j = x.getLsbD j := by
  rw [← BitVec.testBit_toNat, toNat_setWidth_long, BitVec.testBit_toNat]

lemma fls_eq_size (x : BitVec 32) : fls x = Nat.size x.toNat := by
  rw [fls]
  split_ifs with hx
  · rw [hx]; rfl
  · rw [← (highest_flsWord (setWidth_long_ne_zero hx)).size, toNat_setWidth_long]

lemma fls64_eq_size (x : BitVec 64) : fls64 x = Nat.size x.toNat := by
  rw [fls64]
  split_ifs with hx
  · rw [hx]; rfl
  · rw [← (highest_flsWord hx).size]

lemma size_div_two_pow {n k : ℕ} (h : 2 ^ k ≤ n) : Nat.size n = Nat.size (n / 2 ^ k) + k := by
  have hpos : 0 < Nat.size (n / 2 ^ k) := Nat.size_pos.mpr (Nat.div_pos h (Nat.two_pow_pos k))
  apply le_antisymm
  · rw [Nat.size_le, pow_add, ← Nat.div_lt_iff_lt_mul (Nat.two_pow_pos k)]
    exact Nat.lt_size_self _
  · have hlow : 2 ^ (Nat.size (n / 2 ^ k) - 1) ≤ n / 2 ^ k := Nat.lt_size.mp (by omega)
    have hn : Nat.size (n / 2 ^ k) - 1 + k < Nat.size n := by
      rw [Nat.lt_size, pow_add]
      exact (Nat.le_div_iff_mul_le (Nat.two_pow_pos k)).mp hlow
    omega

/-- The trie scans the lower half of a word only when the upper one is empty. -/
lemma trie_fls64_eq_size (x : BitVec 64) : LpmTrie.fls64 x = Nat.size x.toNat := by
  have hlt := x.isLt
  have hhi : ((x >>> 32).setWidth 32).toNat = x.toNat / 2 ^ 32 := by
    rw [BitVec.toNat_setWidth, BitVec.toNat_ushiftRight, Nat.shiftRight_eq_div_pow]
    omega
  rw [LpmTrie.fls64, LpmTrie.fls_eq_size, LpmTrie.fls_eq_size, hhi]
  by_cases hx : x.toNat < 2 ^ 32
  · have hzero : (x >>> 32).setWidth 32 = 0 :=
      BitVec.eq_of_toNat_eq (by rw [hhi, Nat.div_eq_of_lt hx]; rfl)
    rw [if_neg (not_not.mpr hzero), BitVec.toNat_setWidth, Nat.mod_eq_of_lt hx]
  · have hne : (x >>> 32).setWidth 32 ≠ 0 := by
      intro hz
      rw [hz] at hhi
      exact absurd hhi.symm (Nat.div_pos (not_lt.mp hx) (Nat.two_pow_pos 32)).ne'
    rw [if_pos hne, size_div_two_pow (not_lt.mp hx)]

lemma ffs_succ {x : Int32} (h : x ≠ 0) : ∃ i, ffs x = i + 1 ∧ Lowest x.toBitVec i := by
  have hbits : x.toBitVec ≠ 0 := fun hz => h (Int32.toBitVec_inj.mp hz)
  have hlow := lowest_ffsWord (setWidth_long_ne_zero hbits)
  refine ⟨_, if_neg h, ?_, fun j hj => ?_⟩
  · rw [← getLsbD_setWidth_long]
    exact hlow.1
  · rw [← getLsbD_setWidth_long]
    exact hlow.2 j hj

/-- Every scan returns the bit that it names, and the two copies of `fls` and `fls64` are one
function. -/
theorem scans_exact :
    (∀ word ≠ 0, Lowest word (ffsWord word)) ∧
    (∀ word ≠ 0, Highest word (flsWord word)) ∧
    (∀ word ≠ ~~~0, ffz word < 64 ∧ word.getLsbD (ffz word) = false ∧
      ∀ j < ffz word, word.getLsbD j = true) ∧
    (ffs 0 = 0 ∧ ∀ x ≠ 0, ∃ i, ffs x = i + 1 ∧ Lowest x.toBitVec i) ∧
    (fls 0 = 0 ∧ ∀ x ≠ 0, ∃ i, fls x = i + 1 ∧ Highest x i) ∧
    (fls64 0 = 0 ∧ ∀ x ≠ 0, ∃ i, fls64 x = i + 1 ∧ Highest x i) ∧
    (∀ x, LpmTrie.fls x = fls x) ∧
    ∀ x, LpmTrie.fls64 x = fls64 x := by
  refine ⟨fun _ => lowest_ffsWord, fun _ => highest_flsWord, ?_, ⟨rfl, fun _ => ffs_succ⟩,
    ⟨rfl, ?_⟩, ⟨rfl, fun x hx => ⟨_, if_neg hx, highest_flsWord hx⟩⟩, ?_, ?_⟩
  · intro word hword
    have hne : ~~~word ≠ 0 := by
      intro hz
      apply hword
      rw [← hz, BitVec.not_not]
    have hlow := lowest_ffsWord hne
    have hlt : ffz word < 64 := BitVec.lt_of_getLsbD hlow.1
    refine ⟨hlt, ?_, fun j hj => ?_⟩
    · have hbit := hlow.1
      rw [BitVec.getLsbD_not] at hbit
      simp only [Bool.and_eq_true, Bool.not_eq_true'] at hbit
      exact hbit.2
    · have hbit := hlow.2 j hj
      rw [BitVec.getLsbD_not] at hbit
      simpa [show j < 64 by omega] using hbit
  · intro x hx
    have hhigh := highest_flsWord (setWidth_long_ne_zero hx)
    refine ⟨_, if_neg hx, ?_, fun j hj => ?_⟩
    · rw [← getLsbD_setWidth_long]
      exact hhigh.1
    · rw [← getLsbD_setWidth_long]
      exact hhigh.2 j hj
  · exact fun x => by rw [LpmTrie.fls_eq_size, fls_eq_size]
  · exact fun x => by rw [trie_fls64_eq_size, fls64_eq_size]

/-- A negative `int` is scanned by its two's complement bits. -/
theorem scans_exact_negative :
    (∃ i, ffs (-8) = i + 1 ∧ Lowest (-8 : Int32).toBitVec i) ∧
      Highest (0x8000000000000001 : BitVec 64) (flsWord 0x8000000000000001) := by
  obtain ⟨-, hfls, -, ⟨-, hffs⟩, -⟩ := scans_exact
  exact ⟨hffs (-8) (by decide), hfls 0x8000000000000001 (by decide)⟩

end BpfVerify.BitScan
