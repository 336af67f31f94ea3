import Mathlib

/-!
# Mixing steps on machine words

The two steps of a multiply and xor-shift mixer, on words of any width, and the sequences with an
odd increment that feed it.
-/
namespace WordMix

variable {w : ℕ}

def xorShift (k : ℕ) (z : BitVec w) : BitVec w := z ^^^ z >>> k

lemma getLsbD_xorShift (k : ℕ) (z : BitVec w) (i : ℕ) :
    (xorShift k z).getLsbD i = (z.getLsbD i ^^ z.getLsbD (k + i)) := by
  rw [xorShift, BitVec.getLsbD_xor, BitVec.getLsbD_ushiftRight]

/-- The bits are recovered from the highest one down. -/
lemma xorShift_injective {k : ℕ} (hk : 0 < k) :
    Function.Injective (xorShift k : BitVec w → BitVec w) := by
  intro y z h
  have hbits : ∀ n i, w ≤ n + i → y.getLsbD i = z.getLsbD i := by
    intro n
    induction n with
    | zero =>
      intro i hi
      rw [BitVec.getLsbD_of_ge y i (by omega), BitVec.getLsbD_of_ge z i (by omega)]
    | succ n ih =>
      intro i hi
      have hbit := congrArg (fun x : BitVec w => x.getLsbD i) h
      rw [getLsbD_xorShift, getLsbD_xorShift, ih (k + i) (by omega)] at hbit
      exact Bool.xor_left_inj.mp hbit
  exact BitVec.eq_of_getLsbD_eq fun i hi => hbits w i (by omega)

lemma mul_odd_injective {c : BitVec w} (hc : c.toNat % 2 = 1) :
    Function.Injective fun z : BitVec w => z * c := by
  intro y z h
  have hmod : y.toNat * c.toNat ≡ z.toNat * c.toNat [MOD 2 ^ w] := by
    have hnat := congrArg BitVec.toNat h
    rwa [BitVec.toNat_mul, BitVec.toNat_mul] at hnat
  have hodd : Nat.gcd (2 ^ w) c.toNat = 1 :=
    Nat.Coprime.pow_left w ((Nat.coprime_two_left).mpr (Nat.odd_iff.mpr hc))
  have hyz := Nat.ModEq.cancel_right_of_coprime hodd hmod
  exact BitVec.eq_of_toNat_eq (Nat.ModEq.eq_of_lt_of_lt hyz y.isLt z.isLt)

/-- A mixer of two rounds and a last xor-shift. -/
def mix (k₁ : ℕ) (c₁ : BitVec w) (k₂ : ℕ) (c₂ : BitVec w) (k₃ : ℕ) (z : BitVec w) : BitVec w :=
  xorShift k₃ (xorShift k₂ (xorShift k₁ z * c₁) * c₂)

theorem mix_bijective {k₁ k₂ k₃ : ℕ} {c₁ c₂ : BitVec w} (h₁ : 0 < k₁) (h₂ : 0 < k₂) (h₃ : 0 < k₃)
    (hc₁ : c₁.toNat % 2 = 1) (hc₂ : c₂.toNat % 2 = 1) :
    Function.Bijective (mix k₁ c₁ k₂ c₂ k₃) := by
  apply Finite.injective_iff_bijective.mp
  intro y z h
  have hround₂ := mul_odd_injective hc₂ (xorShift_injective h₃ h)
  have hround₁ := mul_odd_injective hc₁ (xorShift_injective h₂ hround₂)
  exact xorShift_injective h₁ hround₁

/-- A sequence with an odd increment does not return within its period. -/
lemma affine_injective {base c : BitVec w} (hc : c.toNat % 2 = 1) :
    Function.Injective fun i : BitVec w => base + c * i := by
  intro i j h
  have hmul : c * i = c * j := add_left_cancel h
  rw [BitVec.mul_comm c i, BitVec.mul_comm c j] at hmul
  exact mul_odd_injective hc hmul

end WordMix
