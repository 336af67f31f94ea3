import Mathlib

/-! The conversion of cycles to nanoseconds of the timecounter target. `timecounter_read`, which
carries the fraction from one reading to the next, is not in the repository and a parameter. -/
namespace BpfVerify.Timecounter

/-- `CYCLECOUNTER_MASK`. -/
def cyclecounterMask (bits : ℕ) : BitVec 64 := if bits < 64 then (1 <<< bits) - 1 else -1

/-- `struct cyclecounter`. -/
structure Cyclecounter where
  mask : BitVec 64
  mult : BitVec 32
  shift : BitVec 32
  deriving DecidableEq

/-- `struct timecounter`. -/
structure Counter where
  cc : Cyclecounter
  cycleLast : BitVec 64
  nsec : BitVec 64
  mask : BitVec 64
  frac : BitVec 64
  deriving DecidableEq

/-- `cyclecounter_cyc2ns`: the nanoseconds, and the fraction that is left. -/
def cyclecounterCyc2ns (cc : Cyclecounter) (cycles mask frac : BitVec 64) : BitVec 64 × BitVec 64 :=
  let ns := cycles * cc.mult.setWidth 64 + frac
  (ns >>> cc.shift.toNat, ns &&& mask)

def timecounterAdjtime (tc : Counter) (delta : BitVec 64) : Counter :=
  { tc with nsec := tc.nsec + delta }

/-- What a reading does: the cycles since the last one are converted, and the counter keeps the
fraction. -/
def Accumulates (read : Counter → BitVec 64 → Counter) : Prop :=
  ∀ tc now, read tc now =
    { tc with
      cycleLast := now
      nsec := tc.nsec +
        (cyclecounterCyc2ns tc.cc ((now - tc.cycleLast) &&& tc.cc.mask) tc.mask tc.frac).1
      frac := (cyclecounterCyc2ns tc.cc ((now - tc.cycleLast) &&& tc.cc.mask) tc.mask tc.frac).2 }

inductive Op where
  | read (now : BitVec 64)
  | adjtime (delta : BitVec 64)

def step (read : Counter → BitVec 64 → Counter) (tc : Counter) : Op → Counter
  | .read now => read tc now
  | .adjtime delta => timecounterAdjtime tc delta

/-- The fraction is one of the `2 ^ shift` parts of a nanosecond. -/
structure Counter.Valid (tc : Counter) : Prop where
  shift : tc.cc.shift.toNat < 64
  mask : tc.mask = BitVec.ofNat 64 (2 ^ tc.cc.shift.toNat - 1)
  frac : tc.frac.toNat < 2 ^ tc.cc.shift.toNat

variable {read : Counter → BitVec 64 → Counter} {tc start : Counter} {cc : Cyclecounter}

/-! ## Conversions -/

lemma toNat_product {cycles : BitVec 64} {mult : BitVec 32}
    (h : cycles.toNat * mult.toNat < 2 ^ 64) :
    (cycles * mult.setWidth 64).toNat = cycles.toNat * mult.toNat := by
  have hmult : (mult.setWidth 64).toNat = mult.toNat :=
    BitVec.toNat_setWidth_of_le (by decide)
  rw [BitVec.toNat_mul, hmult, Nat.mod_eq_of_lt h]

lemma land_ofNat_mask (x : BitVec 64) {k : ℕ} (hk : k ≤ 64) :
    (x &&& BitVec.ofNat 64 (2 ^ k - 1)).toNat = x.toNat % 2 ^ k := by
  have hle : 2 ^ k ≤ 2 ^ 64 := Nat.pow_le_pow_right (by decide) hk
  have hpos := Nat.two_pow_pos k
  rw [BitVec.toNat_and, BitVec.toNat_ofNat, Nat.mod_eq_of_lt (by omega),
    Nat.and_two_pow_sub_one_eq_mod]

lemma cyclecounterCyc2ns_spec (h : tc.Valid) {cycles : BitVec 64}
    (hfit : cycles.toNat * tc.cc.mult.toNat + 2 ^ tc.cc.shift.toNat ≤ 2 ^ 64) :
    (cyclecounterCyc2ns tc.cc cycles tc.mask tc.frac).1.toNat =
        (cycles.toNat * tc.cc.mult.toNat + tc.frac.toNat) / 2 ^ tc.cc.shift.toNat ∧
      (cyclecounterCyc2ns tc.cc cycles tc.mask tc.frac).2.toNat =
        (cycles.toNat * tc.cc.mult.toNat + tc.frac.toNat) % 2 ^ tc.cc.shift.toNat := by
  have hfrac := h.frac
  have hns : (cycles * tc.cc.mult.setWidth 64 + tc.frac).toNat =
      cycles.toNat * tc.cc.mult.toNat + tc.frac.toNat := by
    rw [BitVec.toNat_add, toNat_product (by omega), Nat.mod_eq_of_lt (by omega)]
  constructor
  · rw [cyclecounterCyc2ns, BitVec.toNat_ushiftRight, hns, Nat.shiftRight_eq_div_pow]
  · rw [cyclecounterCyc2ns, h.mask, land_ofNat_mask _ h.shift.le, hns]

/-! ## Readings -/

/-- The counter has followed the clock of `start` for `n` cycles. -/
structure Follows (start : Counter) (n : ℕ) (adjust : BitVec 64) (tc : Counter) : Prop where
  cc : tc.cc = start.cc
  mask : tc.mask = start.mask
  nsec : tc.nsec = start.nsec + adjust + BitVec.ofNat 64
    ((n * start.cc.mult.toNat + start.frac.toNat) / 2 ^ start.cc.shift.toNat)
  frac : tc.frac.toNat =
    (n * start.cc.mult.toNat + start.frac.toNat) % 2 ^ start.cc.shift.toNat

lemma Follows.valid {n : ℕ} {adjust : BitVec 64} (h : Follows start n adjust tc)
    (hstart : start.Valid) : tc.Valid where
  shift := h.cc ▸ hstart.shift
  mask := by rw [h.mask, h.cc, hstart.mask]
  frac := by
    rw [h.frac, h.cc]
    exact Nat.mod_lt _ (Nat.two_pow_pos _)

/-- A fraction that is carried is not lost. -/
lemma carry_div (a x P : ℕ) (hP : 0 < P) : x / P + (a + x % P) / P = (x + a) / P := by
  have hx : x + a = a + x % P + P * (x / P) := by
    have := Nat.mod_add_div x P
    omega
  rw [hx, Nat.add_mul_div_left _ _ hP, Nat.add_comm]

lemma Follows.reads (hread : Accumulates read) (hstart : start.Valid) {n : ℕ} {adjust : BitVec 64}
    (h : Follows start n adjust tc) {now : BitVec 64}
    (hfit : ((now - tc.cycleLast) &&& tc.cc.mask).toNat * tc.cc.mult.toNat +
      2 ^ tc.cc.shift.toNat ≤ 2 ^ 64) :
    Follows start (n + ((now - tc.cycleLast) &&& tc.cc.mask).toNat) adjust (read tc now) := by
  obtain ⟨hns, hleft⟩ := cyclecounterCyc2ns_spec (h.valid hstart) hfit
  have hpos := Nat.two_pow_pos start.cc.shift.toNat
  rw [h.frac, h.cc] at hns hleft
  rw [hread tc now, h.cc]
  generalize ((now - tc.cycleLast) &&& start.cc.mask) = delta at hns hleft ⊢
  generalize cyclecounterCyc2ns start.cc delta tc.mask tc.frac = out at hns hleft ⊢
  have hout : out.1 = BitVec.ofNat 64 out.1.toNat := by rw [BitVec.ofNat_toNat, BitVec.setWidth_eq]
  refine ⟨rfl, h.mask, ?_, ?_⟩
  · dsimp only
    rw [h.nsec, hout, hns, BitVec.add_assoc, ← BitVec.ofNat_add, carry_div _ _ _ hpos]
    congr 3
    ring
  · dsimp only
    rw [hleft, Nat.add_mod_mod]
    congr 1
    ring

lemma Follows.adjtime {n : ℕ} {adjust : BitVec 64} (h : Follows start n adjust tc)
    (delta : BitVec 64) : Follows start n (adjust + delta) (timecounterAdjtime tc delta) where
  cc := h.cc
  mask := h.mask
  nsec := by
    dsimp only [timecounterAdjtime]
    rw [h.nsec]
    ac_rfl
  frac := h.frac

section
variable {bits : ℕ} {o : ℤ}

end

/-- The counter of the harness, with a cycle of one and a half nanoseconds. -/
def sample : Counter := ⟨⟨cyclecounterMask 8, 3, 1⟩, 250, 1000, 1, 0⟩

end BpfVerify.Timecounter
