import BpfVerify.CopyLoops

/-! The `memmove` replacements of the targets, on the bytes of the memory by address. -/
namespace BpfVerify.MemMove
open CopyLoops

/-- `__bpf_memmove` of the zstd targets. -/
def bpfMemmove (mem : ℤ → BitVec 8) (d s : ℤ) (n : BitVec 64) : ℤ → BitVec 8 :=
  if d < s then copyUp mem d s n.toNat else copyDown mem d s n.toNat

/-- `(int)n`. -/
def intOf (n : BitVec 64) : ℤ := (n.setWidth 32).toInt

/-- The loop over the indices below `i`, from the last on, that only copies those below `(int)n`. -/
def mprogLoop (d s : ℤ) (n : BitVec 64) (mem : ℤ → BitVec 8) : ℕ → ℤ → BitVec 8
  | 0 => mem
  | i + 1 =>
      mprogLoop d s n
        (if (i : ℤ) < intOf n then Function.update mem (d + i) (mem (s + i)) else mem) i

/-- `__bpf_mprog_memmove`. -/
def bpfMprogMemmove (mem : ℤ → BitVec 8) (d s : ℤ) (n : BitVec 64) : ℤ → BitVec 8 :=
  if d < s then copyUp mem d s (min 256 (intOf n).toNat) else mprogLoop d s n mem 256

/-- `memmove` of the kernel_range target, upwards in every case. -/
def kernelRangeMemmove (mem : ℤ → BitVec 8) (d s : ℤ) (n : BitVec 64) : ℤ → BitVec 8 :=
  copyUp mem d s (min 128 n.toNat)

lemma mprogLoop_eq (mem : ℤ → BitVec 8) (d s : ℤ) (n : BitVec 64) (i : ℕ) :
    mprogLoop d s n mem i = copyDown mem d s (min i (intOf n).toNat) := by
  induction i generalizing mem with
  | zero => rw [mprogLoop, Nat.zero_min, copyDown]
  | succ i ih =>
    rw [mprogLoop, ih]
    by_cases hi : (i : ℤ) < intOf n
    · rw [if_pos hi, Nat.min_eq_left (by omega), Nat.min_eq_left (by omega), copyDown]
    · rw [if_neg hi, Nat.min_eq_right (by omega), Nat.min_eq_right (by omega)]

lemma toNat_intOf (n : BitVec 64) :
    (intOf n).toNat = if n.toNat % 2 ^ 32 < 2 ^ 31 then n.toNat % 2 ^ 32 else 0 := by
  rw [intOf, BitVec.toInt_eq_toNat_cond, BitVec.toNat_setWidth]
  split_ifs <;> omega

/-- The copied bytes are all of them exactly up to the bound. -/
lemma min_intOf_eq_iff (n : BitVec 64) : min 256 (intOf n).toNat = n.toNat ↔ n ≤ 256 := by
  have hbound : n ≤ 256 ↔ n.toNat ≤ 256 := BitVec.le_def
  rw [hbound, toNat_intOf]
  split_ifs <;> omega

/-- `__bpf_memmove` moves every number of bytes over every overlap. `__bpf_mprog_memmove` moves up
to 256 bytes over every overlap, and no more. The `memmove` of kernel_range moves up to 128 bytes,
unless the destination starts inside the source. -/
theorem memmoves_exact (d s : ℤ) (n : BitVec 64) :
    (∀ mem, bpfMemmove mem d s n = moved mem d s n.toNat) ∧
    ((∀ mem, bpfMprogMemmove mem d s n = moved mem d s n.toNat) ↔ d = s ∨ n ≤ 256) ∧
    ((∀ mem, kernelRangeMemmove mem d s n = moved mem d s n.toNat) ↔
      d = s ∨ n ≤ 128 ∧ ¬ (s < d ∧ d < s + n.toNat)) := by
  have hbytes : Nontrivial (BitVec 8) := ⟨0, 1, by decide⟩
  refine ⟨fun mem => ?_, ?_, ?_⟩
  · rw [bpfMemmove]
    split_ifs with hds
    · exact copyUp_eq_moved mem (by omega)
    · exact copyDown_eq_moved mem (by omega)
  · have hle : min 256 (intOf n).toNat ≤ n.toNat := by
      rw [toNat_intOf]
      split_ifs <;> omega
    rw [← min_intOf_eq_iff]
    by_cases hds : d < s
    · simp only [bpfMprogMemmove, if_pos hds]
      rw [copyUp_eq_moved_iff hle, and_iff_left (by omega)]
    · simp only [bpfMprogMemmove, if_neg hds, mprogLoop_eq]
      rw [copyDown_eq_moved_iff hle, and_iff_left (by omega)]
  · have hlen : n ≤ 128 ↔ min 128 n.toNat = n.toNat := BitVec.le_def.trans min_eq_right_iff.symm
    rw [hlen]
    exact copyUp_eq_moved_iff (Nat.min_le_right _ _)

end BpfVerify.MemMove
