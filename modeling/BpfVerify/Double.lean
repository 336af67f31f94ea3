import Mathlib

/-! Binary64 numbers as exact rationals, with rounding to nearest, ties to even.
The sign of zero is not kept: no comparison and no truth test sees it. -/
namespace Double

/-- The nearest integer, a tie going to the even one. -/
def roundEven (q : ℚ) : ℤ :=
  if q - ⌊q⌋ < 1 / 2 then ⌊q⌋
  else if 1 / 2 < q - ⌊q⌋ then ⌊q⌋ + 1
  else if ⌊q⌋ % 2 = 0 then ⌊q⌋ else ⌊q⌋ + 1

/-- The finite binary64 values: a 53-bit significand and an exponent in range. -/
def Representable (q : ℚ) : Prop :=
  ∃ m e : ℤ, |m| < 2 ^ 53 ∧ -1074 ≤ e ∧ e ≤ 971 ∧ q = m * (2 : ℚ) ^ e

/-- Exponent of the last place that a significand of 53 bits has at `q`. -/
def ulpExp (q : ℚ) : ℤ := max (Int.log 2 |q| - 52) (-1074)

def roundTo (q : ℚ) : ℚ := roundEven (q / 2 ^ ulpExp q) * 2 ^ ulpExp q

lemma roundEven_intCast (n : ℤ) : roundEven n = n := by
  simp [roundEven]

lemma roundEven_cases (q : ℚ) : roundEven q = ⌊q⌋ ∨ roundEven q = ⌊q⌋ + 1 ∧ (⌊q⌋ : ℚ) < q := by
  unfold roundEven
  split_ifs with hlt hgt heven
  · exact .inl rfl
  · exact .inr ⟨rfl, by linarith⟩
  · exact .inl rfl
  · exact .inr ⟨rfl, by linarith⟩

lemma le_roundEven {q : ℚ} {n : ℤ} (h : (n : ℚ) ≤ q) : n ≤ roundEven q := by
  have hf := Int.le_floor.mpr h
  cases roundEven_cases q with
  | inl he => omega
  | inr he => omega

lemma roundEven_le {q : ℚ} {n : ℤ} (h : q ≤ n) : roundEven q ≤ n := by
  have hf : ⌊q⌋ ≤ n := by exact_mod_cast (Int.floor_le q).trans h
  cases roundEven_cases q with
  | inl he => omega
  | inr he =>
    have hlt : (⌊q⌋ : ℚ) < n := he.2.trans_le h
    have hlt' : ⌊q⌋ < n := by exact_mod_cast hlt
    omega

lemma abs_roundEven_le {q : ℚ} {n : ℤ} (h : |q| ≤ n) : |roundEven q| ≤ n := by
  rw [abs_le] at h ⊢
  exact ⟨le_roundEven (by push_cast; exact h.1), roundEven_le h.2⟩

lemma le_abs_roundEven {q : ℚ} {n : ℤ} (h : (n : ℚ) ≤ |q|) : n ≤ |roundEven q| := by
  cases le_abs.mp h with
  | inl hq => exact (le_roundEven hq).trans (le_abs_self _)
  | inr hq =>
    have hneg : roundEven q ≤ -n := roundEven_le (by push_cast; linarith)
    exact (by omega : n ≤ -roundEven q).trans (neg_le_abs _)

/-- Below the next power of two, a value has at most 53 bits above its last place. -/
lemma abs_div_ulp_le (q : ℚ) : |q / 2 ^ ulpExp q| ≤ ((2 ^ 53 : ℤ) : ℚ) := by
  have hpos : (0 : ℚ) < 2 ^ ulpExp q := by positivity
  rw [abs_div, abs_of_pos hpos, div_le_iff₀ hpos]
  have hlt : |q| < ((2 : ℕ) : ℚ) ^ (Int.log 2 |q| + 1) := Int.lt_zpow_succ_log_self one_lt_two _
  have hexp : Int.log 2 |q| + 1 ≤ 53 + ulpExp q := by
    have := le_max_left (Int.log 2 |q| - 52) (-1074)
    unfold ulpExp
    omega
  calc |q| ≤ ((2 : ℕ) : ℚ) ^ (Int.log 2 |q| + 1) := hlt.le
    _ ≤ (2 : ℚ) ^ (53 + ulpExp q) := by
      push_cast
      exact zpow_le_zpow_right₀ one_le_two hexp
    _ = ((2 ^ 53 : ℤ) : ℚ) * 2 ^ ulpExp q := by
      rw [zpow_add₀ two_ne_zero]
      norm_num

/-- Where the last place is above the least one, the leading bit is set. -/
lemma le_abs_div_ulp {q : ℚ} (hq : q ≠ 0) (h : -1074 < ulpExp q) :
    ((2 ^ 52 : ℤ) : ℚ) ≤ |q / 2 ^ ulpExp q| := by
  have hpos : (0 : ℚ) < 2 ^ ulpExp q := by positivity
  rw [abs_div, abs_of_pos hpos, le_div_iff₀ hpos]
  have hlog : Int.log 2 |q| = 52 + ulpExp q := by
    unfold ulpExp at h ⊢
    omega
  have hle : ((2 : ℕ) : ℚ) ^ Int.log 2 |q| ≤ |q| :=
    Int.zpow_log_le_self one_lt_two (abs_pos.mpr hq)
  rw [hlog] at hle
  push_cast at hle ⊢
  rwa [zpow_add₀ two_ne_zero, show (2 : ℚ) ^ (52 : ℤ) = 2 ^ 52 from by norm_cast] at hle

lemma abs_roundTo (q : ℚ) : |roundTo q| = |roundEven (q / 2 ^ ulpExp q)| * (2 : ℚ) ^ ulpExp q := by
  have hpos : (0 : ℚ) < 2 ^ ulpExp q := by positivity
  rw [roundTo, abs_mul, abs_of_pos hpos]
  push_cast
  rfl

theorem representable_roundTo {q : ℚ} (h : |roundTo q| < 2 ^ (1024 : ℤ)) :
    Representable (roundTo q) := by
  have hle : |roundEven (q / 2 ^ ulpExp q)| ≤ 2 ^ 53 := abs_roundEven_le (abs_div_ulp_le q)
  have hmin : -1074 ≤ ulpExp q := le_max_right _ _
  -- a significand `n` at last place `e` stays below the overflow bound
  have hbound : ∀ n e : ℤ, n ≤ |roundEven (q / 2 ^ ulpExp q)| → (n : ℚ) = 2 ^ e →
      e + ulpExp q < 1024 := by
    intro n e hn he
    have hpow : (2 : ℚ) ^ (e + ulpExp q) < 2 ^ (1024 : ℤ) := by
      calc (2 : ℚ) ^ (e + ulpExp q) = n * 2 ^ ulpExp q := by rw [zpow_add₀ two_ne_zero, he]
        _ ≤ |roundEven (q / 2 ^ ulpExp q)| * 2 ^ ulpExp q := by
          have hn' : (n : ℚ) ≤ |roundEven (q / 2 ^ ulpExp q)| := by exact_mod_cast hn
          gcongr
        _ < 2 ^ (1024 : ℤ) := by
          rw [abs_roundTo q] at h
          exact_mod_cast h
    exact (zpow_lt_zpow_iff_right₀ one_lt_two).mp hpow
  by_cases htop : |roundEven (q / 2 ^ ulpExp q)| = 2 ^ 53
  · -- the carry out of the significand moves into the exponent
    have he := hbound (2 ^ 53) 53 htop.ge (by norm_num)
    have hhalf : roundEven (q / 2 ^ ulpExp q) = roundEven (q / 2 ^ ulpExp q) / 2 * 2 := by
      cases abs_eq (by positivity) |>.mp htop with
      | inl h => rw [h]; norm_num
      | inr h => rw [h]; norm_num
    refine ⟨roundEven (q / 2 ^ ulpExp q) / 2, ulpExp q + 1, ?_, by omega, by omega, ?_⟩
    · rw [abs_lt]
      have := abs_le.mp hle
      omega
    · rw [roundTo, zpow_add₀ two_ne_zero, zpow_one]
      conv_lhs => rw [hhalf]
      push_cast
      ring
  · refine ⟨roundEven (q / 2 ^ ulpExp q), ulpExp q, by omega, hmin, ?_, rfl⟩
    by_contra hbig
    have hq : q ≠ 0 := by
      intro h0
      simp [h0, ulpExp] at hbig
    have hlow := le_abs_roundEven (le_abs_div_ulp hq (by omega))
    have he := hbound (2 ^ 52) 52 hlow (by norm_num)
    omega

theorem roundTo_of_representable {q : ℚ} (h : Representable q) : roundTo q = q := by
  obtain ⟨m, e, hm, hmin, -, rfl⟩ := h
  by_cases h0 : m = 0
  · have h := roundEven_intCast 0
    simp only [Int.cast_zero] at h
    simp [h0, roundTo, h]
  have hpos : (0 : ℚ) < |m * (2 : ℚ) ^ e| := by positivity
  have hlog : Int.log 2 |m * (2 : ℚ) ^ e| < 53 + e := by
    rw [← Int.lt_zpow_iff_log_lt one_lt_two hpos, abs_mul, abs_of_pos (by positivity : (0:ℚ) < 2 ^ e)]
    push_cast
    rw [zpow_add₀ two_ne_zero]
    have hm' : |(m : ℚ)| < 2 ^ (53 : ℤ) := by exact_mod_cast hm
    gcongr
  have hulp : ulpExp (m * (2 : ℚ) ^ e) ≤ e := by
    unfold ulpExp
    omega
  have hint : m * (2 : ℚ) ^ e / 2 ^ ulpExp (m * (2 : ℚ) ^ e) =
      ((m * 2 ^ (e - ulpExp (m * (2 : ℚ) ^ e)).toNat : ℤ) : ℚ) := by
    push_cast
    rw [← zpow_natCast, Int.toNat_of_nonneg (by omega), zpow_sub₀ two_ne_zero, mul_div_assoc]
  rw [roundTo, hint, roundEven_intCast, ← hint, div_mul_cancel₀]
  positivity

end Double

/-- A Python `float`. -/
inductive Double where
  | nan
  | inf (negative : Bool)
  | fin (q : ℚ) (representable : Double.Representable q)
  deriving DecidableEq

namespace Double

/-- The double nearest to `q`, infinite beyond the largest finite one. -/
def ofRat (q : ℚ) : Double :=
  if h : |roundTo q| < 2 ^ (1024 : ℤ) then .fin (roundTo q) (representable_roundTo h)
  else .inf (q < 0)

def mul : Double → Double → Double
  | .fin p _, .fin q _ => ofRat (p * q)
  | .fin p _, .inf s => if p = 0 then .nan else .inf (s != decide (p < 0))
  | .inf s, .fin q _ => if q = 0 then .nan else .inf (s != decide (q < 0))
  | .inf s, .inf s' => .inf (s != s')
  | _, _ => .nan

/-- `n < x` for an integer and a double, compared exactly. -/
def intLt (n : ℤ) : Double → Bool
  | .nan => false
  | .inf negative => !negative
  | .fin q _ => n < q

def lt : Double → Double → Bool
  | .fin p _, .fin q _ => p < q
  | .fin _ _, .inf negative => !negative
  | .inf negative, .fin _ _ => negative
  | .inf negative, .inf negative' => negative && !negative'
  | _, _ => false

def leInt : Double → ℤ → Bool
  | .nan, _ => false
  | .inf negative, _ => negative
  | .fin q _, n => q ≤ n

lemma representable_half : Representable (1 / 2) :=
  ⟨1, -1, by norm_num, by norm_num, by norm_num, by norm_num⟩

lemma Representable.abs_lt {q : ℚ} (h : Representable q) : |q| < 2 ^ (1024 : ℤ) := by
  obtain ⟨m, e, hm, -, hmax, rfl⟩ := h
  have hm' : |(m : ℚ)| < 2 ^ (53 : ℤ) := by exact_mod_cast hm
  rw [abs_mul, abs_of_pos (by positivity : (0 : ℚ) < 2 ^ e)]
  calc |(m : ℚ)| * 2 ^ e < 2 ^ (53 : ℤ) * 2 ^ e := by gcongr
    _ ≤ 2 ^ (53 : ℤ) * 2 ^ (971 : ℤ) := by
      gcongr
      exact one_le_two
    _ = 2 ^ (1024 : ℤ) := by rw [← zpow_add₀ two_ne_zero]; norm_num

lemma ofRat_of_representable {q : ℚ} (h : Representable q) : ofRat q = .fin q h := by
  have hlt := h.abs_lt
  unfold ofRat
  split
  · simp [roundTo_of_representable h]
  · next hge =>
    rw [roundTo_of_representable h] at hge
    exact absurd hlt hge

/-- A product that a double holds is that product. -/
lemma mul_of_representable {p q r : ℚ} (hp : Representable p) (hq : Representable q)
    (hr : Representable r) (h : p * q = r) : (Double.fin p hp).mul (.fin q hq) = .fin r hr := by
  subst h
  exact ofRat_of_representable hr

/-- Integers of at most 53 bits, scaled by a small power of two, are exact. -/
lemma representable_scaled {n e : ℤ} (hn : |n| ≤ 2 ^ 53) (hmin : -1074 ≤ e) (hmax : e < 971) :
    Representable (n * (2 : ℚ) ^ e) := by
  by_cases htop : |n| = 2 ^ 53
  · cases abs_eq (by positivity) |>.mp htop with
    | inl h =>
      refine ⟨2 ^ 52, e + 1, by norm_num, by omega, by omega, ?_⟩
      rw [h, zpow_add₀ two_ne_zero]
      push_cast
      ring
    | inr h =>
      refine ⟨-2 ^ 52, e + 1, by norm_num, by omega, by omega, ?_⟩
      rw [h, zpow_add₀ two_ne_zero]
      push_cast
      ring
  · exact ⟨n, e, by omega, hmin, hmax.le, rfl⟩

end Double
