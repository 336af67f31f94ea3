import BpfVerify.Fuzz
import BpfVerify.WordMix

/-!
# Seeds without repetition

`diff_mix`, the finalisers of `fuzz__next` and of `seed_for` in `userspace/fuzz_main.c`, and the
values that the two drivers draw with them.
-/
namespace BpfVerify.SeedMixer
open DiffSeed Fuzz

/-- `seed_for`; the sum `iter + 1` is a `long`. -/
def seedFor (base : UInt64) (iter : ℤ) : Option UInt64 :=
  (long (iter + 1)).map fun next =>
    let z := base + 0x9e3779b97f4a7c15 * UInt64.ofInt next
    let z := (z ^^^ (z >>> 30)) * 0xbf58476d1ce4e5b9
    let z := (z ^^^ (z >>> 27)) * 0x94d049bb133111eb
    z ^^^ (z >>> 31)

/-- `out[k]` after `diff_gen_inputs(base, iter, out)`. -/
def diffOutput (base : UInt64) (iter : ℤ) (k : ℕ) : Option UInt64 := do
  let out ← diffGenInputs base iter
  out[k]?

/-- The positions that the corner sweep leaves to the mixer. -/
def Random (iter : ℤ) (k : ℕ) : Prop :=
  k < nInputs ∧ ((diffNCorners * diffNCorners : ℕ) ≤ iter ∨ 2 ≤ k)

/-! ## The mixer is a permutation -/

lemma toBitVec_diffMix (z : UInt64) : (diffMix z).toBitVec =
    WordMix.mix 30 0xbf58476d1ce4e5b9 27 0x94d049bb133111eb 31 z.toBitVec := rfl

theorem diffMix_bijective : Function.Bijective diffMix := by
  have hbits : Function.Bijective
      (WordMix.mix (w := 64) 30 0xbf58476d1ce4e5b9 27 0x94d049bb133111eb 31) :=
    WordMix.mix_bijective (by omega) (by omega) (by omega) (by decide) (by decide)
  constructor
  · intro y z h
    have hmix := congrArg UInt64.toBitVec h
    rw [toBitVec_diffMix, toBitVec_diffMix] at hmix
    exact UInt64.toBitVec_inj.mp (hbits.1 hmix)
  · intro y
    obtain ⟨z, hz⟩ := hbits.2 y.toBitVec
    exact ⟨⟨z⟩, UInt64.toBitVec_inj.mp hz⟩

lemma increment_injective (base : UInt64) :
    Function.Injective fun i : UInt64 => base + 0x9e3779b97f4a7c15 * i := by
  have hodd : (0x9e3779b97f4a7c15 : BitVec 64).toNat % 2 = 1 := by decide
  have hbits := @WordMix.affine_injective 64 base.toBitVec _ hodd
  intro i j h
  exact UInt64.toBitVec_inj.mp (hbits (congrArg UInt64.toBitVec h))

/-- Two different terms of the sequence of states have two different mixes. -/
lemma mixed_ne (base : UInt64) {i j : UInt64} (h : i ≠ j) :
    diffMix (base + 0x9e3779b97f4a7c15 * i) ≠ diffMix (base + 0x9e3779b97f4a7c15 * j) :=
  fun heq => h (increment_injective base (diffMix_bijective.1 heq))

/-! ## Positions and iterations -/

lemma diffOutput_eq (base : UInt64) {it k : ℕ} (hrange : it * 4 + 4 < 2 ^ 63)
    (h : Random it k) : diffOutput base it k =
      some (diffMix (base + 0x9e3779b97f4a7c15 * UInt64.ofNat (it * 4 + k + 1))) := by
  obtain ⟨hk, hrandom⟩ := h
  have hk4 : k < 4 := hk
  have hdraw : diffDraw base it k =
      some (diffMix (base + 0x9e3779b97f4a7c15 * UInt64.ofNat (it * 4 + k + 1))) :=
    diffDraw_eq base it k (by omega)
  have e0 := diffDraw_eq base it 0 (by omega)
  have e1 := diffDraw_eq base it 1 (by omega)
  have e2 := diffDraw_eq base it 2 (by omega)
  have e3 := diffDraw_eq base it 3 (by omega)
  rw [← hdraw, diffOutput, diffGenInputs]
  split_ifs with hc
  · have hk2 : 2 ≤ k := hrandom.resolve_left (not_le.mpr hc)
    interval_cases k
    · simp [e2, e3]
    · simp [e2, e3]
  · interval_cases k <;> simp [e0, e1, e2, e3]

lemma ofNat_ne {i j : ℕ} (hi : i < 2 ^ 64) (hj : j < 2 ^ 64) (h : i ≠ j) :
    UInt64.ofNat i ≠ UInt64.ofNat j := by
  intro heq
  have hnat := congrArg UInt64.toNat heq
  rw [UInt64.toNat_ofNat', UInt64.toNat_ofNat', Nat.mod_eq_of_lt hi, Nat.mod_eq_of_lt hj] at hnat
  exact h hnat

lemma ofInt_ne {i j : ℤ} (hi : -2 ^ 63 ≤ i ∧ i < 2 ^ 63) (hj : -2 ^ 63 ≤ j ∧ j < 2 ^ 63)
    (h : i ≠ j) : UInt64.ofInt i ≠ UInt64.ofInt j := by
  refine ofNat_ne ?_ ?_ ?_
  · omega
  · omega
  · omega

lemma seedFor_eq (base : UInt64) {iter : ℤ} (hl : -2 ^ 63 ≤ iter) (hu : iter < 2 ^ 63 - 1) :
    seedFor base iter =
      some (diffMix (base + 0x9e3779b97f4a7c15 * UInt64.ofInt (iter + 1))) := by
  rw [seedFor, long_of_range (by omega) (by omega)]
  rfl

/-- The three finalisers are one permutation of the words; the generator draws no value twice, and
no two iterations of a fuzzer start from one state. -/
theorem seeds_distinct :
    Function.Bijective diffMix ∧
    (∀ input : FuzzInput, (fuzzNext input).1 = diffMix (fuzzNext input).2.state ∧
      (fuzzNext input).2.state = input.state + 0x9e3779b97f4a7c15) ∧
    (∀ base iter, seedFor base iter = (long (iter + 1)).map fun next =>
      diffMix (base + 0x9e3779b97f4a7c15 * UInt64.ofInt next)) ∧
    (∀ base iter k iter' k', 0 ≤ iter → iter * 4 + 4 < 2 ^ 63 → Random iter k →
      0 ≤ iter' → iter' * 4 + 4 < 2 ^ 63 → Random iter' k' → (iter, k) ≠ (iter', k') →
      ∃ x x', diffOutput base iter k = some x ∧ diffOutput base iter' k' = some x' ∧ x ≠ x') ∧
    ∀ base iter iter', -2 ^ 63 ≤ iter → iter < 2 ^ 63 - 1 → -2 ^ 63 ≤ iter' →
      iter' < 2 ^ 63 - 1 → iter ≠ iter' →
      ∃ s s', seedFor base iter = some s ∧ seedFor base iter' = some s' ∧ s ≠ s' := by
  refine ⟨diffMix_bijective, fun input => ?_, fun base iter => rfl, ?_, ?_⟩
  · rw [fuzzNext_eq]
    exact ⟨rfl, rfl⟩
  · intro base iter k iter' k' h0 hrange hk h0' hrange' hk' hne
    obtain ⟨it, rfl⟩ := Int.eq_ofNat_of_zero_le h0
    obtain ⟨it', rfl⟩ := Int.eq_ofNat_of_zero_le h0'
    have hk4 : k < 4 := hk.1
    have hk4' : k' < 4 := hk'.1
    refine ⟨_, _, diffOutput_eq base (by omega) hk, diffOutput_eq base (by omega) hk',
      mixed_ne base (ofNat_ne (by omega) (by omega) fun heq => hne ?_)⟩
    have hit : it = it' := by omega
    have hkk : k = k' := by omega
    rw [hit, hkk]
  · intro base iter iter' hl hu hl' hu' hne
    exact ⟨_, _, seedFor_eq base hl hu, seedFor_eq base hl' hu',
      mixed_ne base (ofInt_ne (by omega) (by omega) fun heq => hne (by omega))⟩

/-- The first position after the corner sweep and one within it; the first iteration and the one
before the last `long`. -/
theorem seeds_distinct_early :
    (∃ x x', diffOutput 0x1234567 256 0 = some x ∧ diffOutput 0x1234567 0 2 = some x' ∧ x ≠ x') ∧
    ∃ s s', seedFor 0x1234567 0 = some s ∧ seedFor 0x1234567 (2 ^ 63 - 2) = some s' ∧ s ≠ s' := by
  obtain ⟨-, -, -, houtputs, hseeds⟩ := seeds_distinct
  constructor
  · exact houtputs _ 256 0 0 2 (by omega) (by omega) ⟨by decide, .inl (by decide)⟩ (by omega)
      (by omega) ⟨by decide, .inr (by omega)⟩ (by decide)
  · exact hseeds _ 0 (2 ^ 63 - 2) (by omega) (by omega) (by omega) (by omega) (by omega)

end BpfVerify.SeedMixer
