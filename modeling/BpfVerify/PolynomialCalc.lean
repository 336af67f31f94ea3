import Mathlib

/-!
# Polynomials of integers

`lib/math/polynomial.c` with its signed division, which is done by the unsigned one, against
division truncated toward zero. A `long` wraps.
-/
namespace BpfVerify.PolynomialCalc

abbrev Long := BitVec 64

def long (z : ℤ) : Long := BitVec.ofInt 64 z

/-- The unsigned division by zero gives zero on the BPF machine. -/
def bpfSdiv (a b : Long) : Long :=
  let neg := false
  let (ua, neg) := if a.slt 0 then (-a, neg ^^ true) else (a, neg)
  let (ub, neg) := if b.slt 0 then (-b, neg ^^ true) else (b, neg)
  let r := ua / ub
  if neg then -r else r

def multFrac (x n d : Long) : Long :=
  let q := bpfSdiv x d
  let r := x - q * d
  q * n + bpfSdiv (r * n) d

structure PolynomialTerm where
  deg : BitVec 32
  coef : Long
  divider : Long
  dividerLeftover : Long

/-- `terms` are the records from the first one on. -/
structure Polynomial where
  totalDivider : Long
  terms : List PolynomialTerm

/-- The inner loop from the counter `deg` on, which is compared as unsigned. -/
def degLoop (term : PolynomialTerm) (data : Long) (deg : BitVec 32) (tmp : Long) : Long :=
  if deg < term.deg then degLoop term data (deg + 1) (multFrac tmp data term.divider) else tmp
termination_by term.deg.toNat - deg.toNat
decreasing_by
  have hlt : deg.toNat < term.deg.toNat := by assumption
  have hstep : (deg + 1).toNat = deg.toNat + 1 := by
    rw [BitVec.toNat_add, show (1 : BitVec 32).toNat = 1 from rfl]
    omega
  omega

/-- The outer loop, which does not end within records that all have a degree. -/
def termLoop (data : Long) : List PolynomialTerm → Long → Option Long
  | [], _ => none
  | term :: rest, ret =>
    let tmp := degLoop term data 0 term.coef
    let ret := ret + bpfSdiv tmp term.dividerLeftover
    if term.deg ≠ 0 then termLoop data rest ret else some ret

def polynomialCalc (poly : Polynomial) (data : Long) : Option Long :=
  let totalDivider := if poly.totalDivider ≠ 0 then poly.totalDivider else 1
  (termLoop data poly.terms 0).map fun ret => bpfSdiv ret totalDivider

/-! ## Truncated division -/

lemma tdiv_mul_split_of_nonneg {x n d : ℤ} (hx : 0 ≤ x) (hn : 0 ≤ n) (hd : 0 ≤ d) :
    (x * n).tdiv d = x.tdiv d * n + (x.tmod d * n).tdiv d := by
  have hrem : 0 ≤ x.tmod d := Int.tmod_nonneg d hx
  have hsplit : x * n = x.tmod d * n + d * (x.tdiv d * n) := by
    rw [← Int.mul_assoc, ← Int.add_mul, Int.tmod_add_mul_tdiv]
  rw [Int.tdiv_eq_ediv_of_nonneg (Int.mul_nonneg hx hn),
    Int.tdiv_eq_ediv_of_nonneg (Int.mul_nonneg hrem hn), hsplit]
  rcases hd.eq_or_lt with rfl | hpos
  · simp
  · rw [Int.add_mul_ediv_left _ _ hpos.ne', Int.add_comm]

/-- The quotient and the remainder of `x` have its sign, so that their products with `n` have one
sign and their quotients by `d` add up. -/
theorem tdiv_mul_split (x n d : ℤ) : (x * n).tdiv d = x.tdiv d * n + (x.tmod d * n).tdiv d := by
  have hd (x n : ℤ) (hx : 0 ≤ x) (hn : 0 ≤ n) :
      (x * n).tdiv d = x.tdiv d * n + (x.tmod d * n).tdiv d := by
    rcases le_total 0 d with hd | hd
    · exact tdiv_mul_split_of_nonneg hx hn hd
    · have h := tdiv_mul_split_of_nonneg hx hn (Int.neg_nonneg_of_nonpos hd)
      simp only [Int.tdiv_neg, Int.tmod_neg, Int.neg_mul] at h
      omega
  have hn (x : ℤ) (hx : 0 ≤ x) : (x * n).tdiv d = x.tdiv d * n + (x.tmod d * n).tdiv d := by
    rcases le_total 0 n with hn | hn
    · exact hd x n hx hn
    · have h := hd x (-n) hx (Int.neg_nonneg_of_nonpos hn)
      simp only [Int.mul_neg, Int.neg_tdiv] at h
      omega
  rcases le_total 0 x with hx | hx
  · exact hn x hx
  · have h := hn (-x) (Int.neg_nonneg_of_nonpos hx)
    simp only [Int.neg_mul, Int.neg_tdiv, Int.neg_tmod] at h
    omega

/-! ## One step -/

/-- The integer is the value of a `long`. -/
def Fits (z : ℤ) : Prop := -2 ^ 63 ≤ z ∧ z < 2 ^ 63

instance (z : ℤ) : Decidable (Fits z) := inferInstanceAs (Decidable (_ ∧ _))

lemma toInt_long {z : ℤ} (h : Fits z) : (long z).toInt = z := by
  rw [long, BitVec.toInt_ofInt]
  exact Int.bmod_eq_of_le (by have := h.1; omega) (by have := h.2; omega)

lemma long_toInt (x : Long) : long x.toInt = x := BitVec.ofInt_toInt

lemma bpfSdiv_eq_sdiv (a b : Long) : bpfSdiv a b = a.sdiv b := by
  rw [BitVec.sdiv_eq, bpfSdiv, show (0 : Long) = 0#64 from rfl, BitVec.slt_zero_eq_msb,
    BitVec.slt_zero_eq_msb]
  cases a.msb <;> cases b.msb <;> rfl

/-- The quotient truncated toward zero, reduced to 64 bits. -/
theorem bpfSdiv_eq (a b : Long) : bpfSdiv a b = long (a.toInt.tdiv b.toInt) := by
  rw [bpfSdiv_eq_sdiv]
  apply BitVec.eq_of_toInt_eq
  rw [BitVec.toInt_sdiv, long, BitVec.toInt_ofInt]

lemma long_add (y z : ℤ) : long (y + z) = long y + long z := BitVec.ofInt_add y z

lemma long_mul (y z : ℤ) : long (y * z) = long y * long z := BitVec.ofInt_mul y z

lemma multFrac_eq {x n d : Long} (h : Fits (x.toInt.tmod d.toInt * n.toInt)) :
    multFrac x n d = long ((x.toInt * n.toInt).tdiv d.toInt) := by
  have hrem : x - long (x.toInt.tdiv d.toInt) * d = long (x.toInt.tmod d.toInt) := by
    have hx : long (x.toInt.tmod d.toInt) + long (x.toInt.tdiv d.toInt) * long d.toInt = x := by
      rw [← long_mul, ← long_add, Int.mul_comm, Int.tmod_add_mul_tdiv, long_toInt]
    rw [long_toInt] at hx
    exact sub_eq_of_eq_add hx.symm
  have hprod : (long (x.toInt.tmod d.toInt) * n).toInt = x.toInt.tmod d.toInt * n.toInt := by
    rw [← toInt_long h, long_mul, long_toInt]
  rw [multFrac, bpfSdiv_eq x d, hrem, bpfSdiv_eq, hprod, tdiv_mul_split x.toInt, long_add,
    long_mul, long_toInt]

/-! ## The loops -/

/-- The value of a term over the integers, after `k` rounds. -/
def power (term : PolynomialTerm) (data : Long) : ℕ → ℤ
  | 0 => term.coef.toInt
  | k + 1 => (power term data k * data.toInt).tdiv term.divider.toInt

def termValue (term : PolynomialTerm) (data : Long) : ℤ :=
  (power term data term.deg.toNat).tdiv term.dividerLeftover.toInt

/-- Each remainder times the datum, and each power, is the value of a `long`. -/
def TermFits (term : PolynomialTerm) (data : Long) : Prop :=
  ∀ k < term.deg.toNat, Fits ((power term data k).tmod term.divider.toInt * data.toInt) ∧
    Fits (power term data (k + 1))

instance (term : PolynomialTerm) (data : Long) : Decidable (TermFits term data) :=
  Nat.decidableBallLT _ _

lemma fits_toInt (x : Long) : Fits x.toInt := ⟨BitVec.le_toInt x, BitVec.toInt_lt⟩

lemma fits_power {term : PolynomialTerm} {data : Long} (h : TermFits term data) {k : ℕ}
    (hk : k ≤ term.deg.toNat) : Fits (power term data k) := by
  cases k with
  | zero => exact fits_toInt term.coef
  | succ k => exact (h k hk).2

lemma multFrac_power {term : PolynomialTerm} {data : Long} (h : TermFits term data) {k : ℕ}
    (hk : k < term.deg.toNat) :
    multFrac (long (power term data k)) data term.divider = long (power term data (k + 1)) := by
  have hval := toInt_long (fits_power h hk.le)
  rw [multFrac_eq (by rw [hval]; exact (h k hk).1), hval, power]

/-- From the counter `k` on the inner loop does the rounds that are left. -/
lemma degLoop_power {term : PolynomialTerm} {data : Long} (h : TermFits term data) {k n : ℕ}
    (hn : k + n = term.deg.toNat) :
    degLoop term data (BitVec.ofNat 32 k) (long (power term data k)) =
      long (power term data term.deg.toNat) := by
  have hk : (BitVec.ofNat 32 k).toNat = k := by
    rw [BitVec.toNat_ofNat]
    exact Nat.mod_eq_of_lt (by have := term.deg.isLt; omega)
  induction n generalizing k with
  | zero =>
    rw [degLoop, if_neg (by rw [BitVec.lt_def, hk]; omega)]
    rw [← hn, Nat.add_zero]
  | succ n ih =>
    have hnext : BitVec.ofNat 32 k + 1 = BitVec.ofNat 32 (k + 1) := (BitVec.ofNat_add k 1).symm
    have hk' : (BitVec.ofNat 32 (k + 1)).toNat = k + 1 := by
      rw [BitVec.toNat_ofNat]
      exact Nat.mod_eq_of_lt (by have := term.deg.isLt; omega)
    rw [degLoop, if_pos (by rw [BitVec.lt_def, hk]; omega), multFrac_power h (by omega), hnext]
    exact ih (by omega) hk'

lemma degLoop_eq {term : PolynomialTerm} {data : Long} (h : TermFits term data) :
    degLoop term data 0 term.coef = long (power term data term.deg.toNat) := by
  have hstart := degLoop_power h (Nat.zero_add term.deg.toNat)
  rwa [power, long_toInt] at hstart

lemma bpfSdiv_term {term : PolynomialTerm} {data : Long} (h : TermFits term data) :
    bpfSdiv (degLoop term data 0 term.coef) term.dividerLeftover = long (termValue term data) := by
  rw [degLoop_eq h, bpfSdiv_eq, toInt_long (fits_power h le_rfl), termValue]

/-- The outer loop adds up the terms as far as the first without a degree. -/
lemma termLoop_eq {data : Long} {init : List PolynomialTerm} {last : PolynomialTerm}
    (rest : List PolynomialTerm) (hinit : ∀ term ∈ init, term.deg ≠ 0)
    (hlast : last.deg = 0) (h : ∀ term ∈ init ++ [last], TermFits term data) (ret : ℤ) :
    termLoop data (init ++ last :: rest) (long ret) =
      some (long (ret + ((init ++ [last]).map fun term => termValue term data).sum)) := by
  induction init generalizing ret with
  | nil =>
    have hval := bpfSdiv_term (h last (by simp))
    rw [List.nil_append, termLoop, hval, ← long_add, if_neg (not_not.mpr hlast)]
    simp
  | cons term init ih =>
    have hval := bpfSdiv_term (h term (by simp))
    have hdeg : term.deg ≠ 0 := hinit term List.mem_cons_self
    have hnext := ih (fun t ht => hinit t (List.mem_cons_of_mem term ht))
      (fun t ht => h t (List.mem_cons_of_mem term ht)) (ret + termValue term data)
    rw [List.cons_append, termLoop, hval, ← long_add, if_pos hdeg, hnext, List.cons_append,
      List.map_cons, List.sum_cons, Int.add_assoc]

/-- The sum of the terms. -/
def termSum (terms : List PolynomialTerm) (data : Long) : ℤ :=
  (terms.map fun term => termValue term data).sum

/-- A zero divider counts as one. -/
def wholeDivider (poly : Polynomial) : ℤ :=
  if poly.totalDivider = 0 then 1 else poly.totalDivider.toInt

/-- Signed division by the unsigned one, the split product and the whole evaluation are exact where
their values and those of the remainders are `long`s. -/
theorem polynomialCalc_exact :
    (∀ a b : Long, bpfSdiv a b = long (a.toInt.tdiv b.toInt)) ∧
    (∀ x n d : Long, Fits (x.toInt.tmod d.toInt * n.toInt) →
      Fits ((x.toInt * n.toInt).tdiv d.toInt) →
      (multFrac x n d).toInt = (x.toInt * n.toInt).tdiv d.toInt) ∧
    ∀ (poly : Polynomial) (data : Long) (init : List PolynomialTerm) (last : PolynomialTerm)
      (rest : List PolynomialTerm), poly.terms = init ++ last :: rest →
      (∀ term ∈ init, term.deg ≠ 0) → last.deg = 0 →
      (∀ term ∈ init ++ [last], TermFits term data) →
      Fits (termSum (init ++ [last]) data) →
      Fits ((termSum (init ++ [last]) data).tdiv (wholeDivider poly)) →
      ∃ y, polynomialCalc poly data = some y ∧
        y.toInt = (termSum (init ++ [last]) data).tdiv (wholeDivider poly) := by
  refine ⟨bpfSdiv_eq, ?_, ?_⟩
  · intro x n d hrem hres
    rw [multFrac_eq hrem, toInt_long hres]
  · intro poly data init last rest hterms hinit hlast hfits hsum hres
    have hloop := termLoop_eq rest hinit hlast hfits 0
    rw [Int.zero_add, ← termSum, show long 0 = 0 from rfl] at hloop
    have hdiv : (if poly.totalDivider ≠ 0 then poly.totalDivider else 1).toInt = wholeDivider poly := by
      rw [wholeDivider]
      by_cases h0 : poly.totalDivider = 0
      · rw [if_neg (not_not.mpr h0), if_pos h0]
        rfl
      · rw [if_pos h0, if_neg h0]
    refine ⟨long ((termSum (init ++ [last]) data).tdiv (wholeDivider poly)), ?_, toInt_long hres⟩
    rw [polynomialCalc, hterms, hloop, Option.map_some, bpfSdiv_eq, toInt_long hsum, hdiv]

/-- `(5 * x ^ 2 / -3 + 7) / 2` at `x = -4`, with the terms of degree two and zero. -/
def quadratic : Polynomial where
  totalDivider := 2
  terms := [⟨2, 5, -3, 1⟩, ⟨0, 7, 1, 1⟩]

theorem polynomialCalc_exact_quadratic : ∃ y, polynomialCalc quadratic (-4) = some y ∧
    y.toInt = (termSum quadratic.terms (-4)).tdiv (wholeDivider quadratic) := by
  exact polynomialCalc_exact.2.2 quadratic (-4) [⟨2, 5, -3, 1⟩] ⟨0, 7, 1, 1⟩ [] rfl (by decide) rfl
    (by decide) (by decide) (by decide)

end BpfVerify.PolynomialCalc
